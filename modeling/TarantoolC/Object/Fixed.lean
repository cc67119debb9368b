/-
# TarantoolC.Object.Fixed — objects over a user's buffer (`tnt_object_as`).

Such an object is meant to be read only: every write looks at the flag `as` and refuses.  The stack
of open containers is kept all the same — a container that could not be written is still pushed, at
the end of the buffer — and `tnt_object_container_close` does not look at the flag.  In the sparse
and the packed mode it writes the header behind the user's last byte.

`tntObjectAs_immutable` is what is left: as long as no call closes an open container in these modes
(`Use.Patches`), the buffer is untouched in every state, by any calls and any allocator.

A use of such an object is any call of the API, a format, a reset, a read or a change of mode.  The
invariant is short: the stream is `userBuf` of the user's bytes, and the stack is in order.  It says
nothing of the entries, since with the flag set none is ever read except by a close, which is the
one use that is excluded.
-/
import TarantoolC.Object.Format

namespace TarantoolC.Object

open MsgPack Msgpuck

/-! ## §1 — the code.

`tnt_object_as`, and all that can be done with an object, as one type of uses. -/

/-- `tnt_object_as(NULL, buf, buf_len)`. -/
def tntObjectAs (stack : List SboStack) (buf : Bytes) : Obj :=
  let o := tntObject stack
  { o with s := { o.s with sb := { o.s.sb with
      data := .live buf, size := buf.length, alloc := buf.length, fixed := true } } }

/-- A use of the object: one of its calls except the reset, or a format. -/
inductive Use where
  | call (c : Call) (h : c ≠ .reset)
  | format (fmt : List Char) (args : List VaArg)

section Uses

variable (toFloat : UInt64 → UInt32)

/-- The first call a format makes; `skip` characters have been dealt with already. -/
def firstCall : List Char → Nat → List VaArg → Option Call
  | [], _, _ => none
  | _ :: f, skip + 1, args => firstCall f skip args
  | c :: f, 0, args =>
    match directive toFloat (c :: f) args with
    | none => none
    | some (none, skip, args) => firstCall f skip args
    | some (some call, _, _) => some call

/-- Every conversion of the format is known and finds arguments of its type. -/
def Matches : List Char → Nat → List VaArg → Prop
  | [], _, _ => True
  | _ :: f, skip + 1, args => Matches f skip args
  | c :: f, 0, args =>
    ∃ call skip args', directive toFloat (c :: f) args = some (call, skip, args') ∧
      Matches f skip args'

/-- The caller's side of a use: its arguments are what the format says. -/
def Use.Proper : Use → Prop
  | .call _ _ => True
  | .format fmt args => Matches toFloat fmt 0 args

variable [Msgpuck]

/-- Perform a use; `A k` is what its `k`th call of the object meets. -/
def Use.exec (A : Nat → ObjAllocator) (o : Obj) : Use → Option (Int × Obj)
  | .call c _ => c.exec (A 0) o
  | .format fmt args => tntObjectVformat toFloat A o fmt args

end Uses

/-! ## §2 — where the flag is not looked at.

Closing, in two of the three modes. -/

/-- A container is open that `tnt_object_container_close` would close. -/
def Obj.Closable (o : Obj) : Prop :=
  o.stackSize ≠ 0 ∧ ∀ e, o.stack[o.stackSize - 1]? = some e → ¬ (e.type = .map ∧ e.size.toNat % 2 = 1)

/-- The call closes an open container and writes its header. -/
def Call.Patches (o : Obj) (c : Call) : Prop :=
  c = .containerClose ∧ o.type ≠ .simple ∧ o.Closable

/-- ... and so does the use.  A format works in the packed mode, and on a read-only object it does
not get past its first call. -/
def Use.Patches (toFloat : UInt64 → UInt32) (o : Obj) : Use → Prop
  | .call c _ => c.Patches o
  | .format fmt args => firstCall toFloat fmt 0 args = some .containerClose ∧ o.Closable

/-! ## §3 — one call.

Every other use leaves the buffer alone: by the lemmas of `TarantoolC.Object.Calls`, for a buffer
that is fixed. -/

/-- The stack array is as long as it says, and never full for good. -/
structure Obj.Stacked (o : Obj) : Prop where
  length : o.stack.length = o.stackAlloc
  size_le : o.stackSize ≤ o.stackAlloc
  alloc_pos : 0 < o.stackAlloc

section Calls

variable [Msgpuck]

omit [Msgpuck] in
/-- Counting keeps the stack in order, ... -/
theorem Obj.Stacked.countChild {o : Obj} (h : o.Stacked) : (countChild o).Stacked := by
  unfold Object.countChild
  split_ifs
  · exact ⟨by simpa using h.length, h.size_le, h.alloc_pos⟩
  · exact h

omit [Msgpuck] in
/-- ... and the stream. -/
theorem countChild_s (o : Obj) : (countChild o).s = o.s := by
  unfold countChild
  split_ifs <;> rfl

omit [Msgpuck] in
/-- A write is refused. -/
theorem write_fixed (A : ObjAllocator) {o : Obj} (h : o.s.sb.fixed = true) (data : Bytes) :
    write A o data = some (-1, o) := by
  simp only [write, tntBufWrite, h, if_true, bind, Option.bind_some, pure]

omit [Msgpuck] in
/-- A vector is refused as a string is. -/
theorem writev_fixed (A : ObjAllocator) {o : Obj} (h : o.s.sb.fixed = true) (v : List Bytes) :
    writev A o v = some (-1, o) := by
  simp only [writev, tntBufWritev, h, if_true, bind, Option.bind_some, pure]

/-- What a call leaves of a read-only object: the stream, and a stack in order. -/
def Keeps (o o' : Obj) : Prop := o'.s = o.s ∧ o'.Stacked

omit [Msgpuck] in
/-- Counting is of no account here. -/
theorem keeps_countChild {o : Obj} (h : o.Stacked) : Keeps o (countChild o) :=
  ⟨countChild_s o, h.countChild⟩

omit [Msgpuck] in
/-- A new stack array is in order too. -/
theorem growStack_keeps (A : ObjAllocator) {o : Obj} (h : o.Stacked) :
    ∃ rc o', (if o.stackSize = o.stackAlloc then tntSbufObjectGrowStack A o else (0, o)) = (rc, o') ∧
      Keeps o o' ∧ (rc ≠ -1 → o'.stackSize < o'.stackAlloc) := by
  by_cases hfull : o.stackSize = o.stackAlloc
  · rw [if_pos hfull, tntSbufObjectGrowStack]
    by_cases hlimit : o.stackAlloc = 128
    · rw [if_pos hlimit]
      exact ⟨_, _, rfl, ⟨rfl, h⟩, fun hrc => absurd rfl hrc⟩
    · rw [if_neg hlimit]
      cases hnew : A.newStack (2 * o.stackAlloc) with
      | none => exact ⟨_, _, rfl, ⟨rfl, h⟩, fun hrc => absurd rfl hrc⟩
      | some stack =>
        have hpos := h.alloc_pos
        have hsize := h.size_le
        refine ⟨_, _, rfl, ⟨rfl, A.newStack_length _ _ hnew, ?_, ?_⟩, fun _ => ?_⟩
        · show o.stackSize ≤ 2 * o.stackAlloc
          omega
        · show 0 < 2 * o.stackAlloc
          omega
        · show o.stackSize < 2 * o.stackAlloc
          omega
  · rw [if_neg hfull]
    exact ⟨_, _, rfl, ⟨rfl, h⟩, fun _ => Nat.lt_of_le_of_ne h.size_le hfull⟩

omit [Msgpuck] in
/-- A container is pushed, but not written. -/
theorem addContainer_fixed (A : ObjAllocator) {o : Obj} (hfix : o.s.sb.fixed = true)
    (h : o.Stacked) (kind : Kind) (simple : UInt32 → Bytes) (sparse packed : Bytes)
    (size : UInt32) :
    ∃ o', addContainer kind simple sparse packed A o size = some (-1, o') ∧ Keeps o o' := by
  obtain ⟨rc, o₁, hgrow, ⟨hs, hst⟩, hroom⟩ := growStack_keeps A h.countChild
  rw [countChild_s] at hs
  simp only [addContainer, hgrow]
  by_cases hrc : rc = -1
  · rw [if_pos hrc]
    exact ⟨o₁, rfl, hs, hst⟩
  · rw [if_neg hrc, if_pos (by rw [hst.length]; exact hroom hrc)]
    have hfix₁ : o₁.s.sb.fixed = true := by rw [hs, hfix]
    -- the pushed entry, with the writing still to come
    set o₂ : Obj := { o₁ with
      stack := o₁.stack.set o₁.stackSize ⟨o₁.s.sb.size, 0, kind⟩
      stackSize := o₁.stackSize + 1 } with ho₂
    have hkeeps : Keeps o o₂ := by
      refine ⟨hs, ⟨?_, hroom hrc, hst.alloc_pos⟩⟩
      rw [ho₂]
      simpa using hst.length
    refine ⟨o₂, ?_, hkeeps⟩
    cases o₁.type with
    | simple => exact write_fixed A (o := o₂) hfix₁ _
    | sparse => exact write_fixed A (o := o₂) hfix₁ _
    | packed => exact write_fixed A (o := o₂) hfix₁ _

omit [Msgpuck] in
/-- Where something is open there is an innermost entry. -/
theorem Obj.Stacked.top {o : Obj} (h : o.Stacked) (hpos : o.stackSize ≠ 0) :
    ∃ e, o.stack[o.stackSize - 1]? = some e := by
  have hlt : o.stackSize - 1 < o.stack.length := by
    have hle := h.size_le
    rw [h.length]
    omega
  exact ⟨o.stack.get ⟨o.stackSize - 1, hlt⟩, List.getElem?_eq_getElem hlt⟩

/-- Closing a container that is not open, or not closable, or in the simple mode. -/
theorem containerClose_fixed (A : ObjAllocator) {o : Obj} (h : o.Stacked)
    (hsafe : ¬ (o.type ≠ .simple ∧ o.Closable)) :
    ∃ rv o', tntObjectContainerClose A o = some (rv, o') ∧ Keeps o o' ∧
      (o.type ≠ .simple → rv = -1) := by
  by_cases hempty : o.stackSize = 0
  · rw [tntObjectContainerClose, if_pos hempty]
    exact ⟨-1, o, rfl, ⟨rfl, h⟩, fun _ => rfl⟩
  · obtain ⟨e, he⟩ := h.top hempty
    rw [tntObjectContainerClose, if_neg hempty]
    simp only [he, bind, Option.bind_some]
    -- a map with a key but no value is refused, whatever the mode
    by_cases hodd : e.type = .map ∧ e.size.toNat % 2 = 1
    · rw [if_pos hodd]
      exact ⟨-1, o, rfl, ⟨rfl, h⟩, fun _ => rfl⟩
    · rw [if_neg hodd]
      have hclosable : o.Closable := by
        refine ⟨hempty, ?_⟩
        intro e' he'
        rw [he] at he'
        rw [← Option.some.inj he']
        exact hodd
      -- the only close left that the condition allows is that of the mode which writes no header
      have hsimple : o.type = .simple := by
        by_contra hne
        exact hsafe ⟨hne, hclosable⟩
      refine ⟨0, { o with stackSize := o.stackSize - 1 }, ?_, ⟨rfl, h.length, ?_, h.alloc_pos⟩, ?_⟩
      · simp only [writeHeader, hsimple]
      · exact (Nat.sub_le _ _).trans h.size_le
      · intro hne
        exact absurd hsimple hne

/-- **A call on a read-only object** that does not patch it: it ends, the stream is as before, and
outside the simple mode it has failed. -/
theorem Call.exec_fixed (A : ObjAllocator) {o : Obj} (hfix : o.s.sb.fixed = true) (h : o.Stacked)
    {c : Call} (hreset : c ≠ .reset) (hsafe : ¬ c.Patches o) :
    ∃ rv o', c.exec A o = some (rv, o') ∧ Keeps o o' ∧
      (o.type ≠ .simple → (∀ t, c ≠ .setType t) → rv = -1) := by
  have hfix' : (countChild o).s.sb.fixed = true := by rw [countChild_s, hfix]
  have hleaf : ∀ data, ∃ rv o', write A (countChild o) data = some (rv, o') ∧ Keeps o o' ∧
      (o.type ≠ .simple → (∀ t, c ≠ .setType t) → rv = -1) := by
    intro data
    exact ⟨-1, _, write_fixed A hfix' data, keeps_countChild h, fun _ _ => rfl⟩
  have hleafv : ∀ v, ∃ rv o', writev A (countChild o) v = some (rv, o') ∧ Keeps o o' ∧
      (o.type ≠ .simple → (∀ t, c ≠ .setType t) → rv = -1) := by
    intro v
    exact ⟨-1, _, writev_fixed A hfix' v, keeps_countChild h, fun _ _ => rfl⟩
  cases c with
  | addNil => exact hleaf _
  | addUint value => exact hleaf _
  | addInt value => exact hleaf _
  | addStr str => exact hleafv _
  | addStrz strz => exact hleafv _
  | addBin bin => exact hleafv _
  | addBool value => exact hleaf _
  | addFloat bits => exact hleaf _
  | addDouble bits => exact hleaf _
  | addArray size =>
    obtain ⟨o', hadd, hkeeps⟩ := addContainer_fixed A hfix h .array mpEncodeArray
      (mpEncodeArray32 0) (mpEncodeArray 0) size
    exact ⟨-1, o', hadd, hkeeps, fun _ _ => rfl⟩
  | addMap size =>
    obtain ⟨o', hadd, hkeeps⟩ := addContainer_fixed A hfix h .map mpEncodeMap (mpEncodeMap32 0)
      (mpEncodeMap 0) size
    exact ⟨-1, o', hadd, hkeeps, fun _ _ => rfl⟩
  | containerClose =>
    -- no header is patched: nothing is open that could be closed, or the mode is the simple one
    obtain ⟨rv, o', hclose, hkeeps, hfails⟩ := containerClose_fixed A h fun hp => hsafe ⟨rfl, hp⟩
    exact ⟨rv, o', hclose, hkeeps, fun hne _ => hfails hne⟩
  | setType type =>
    have hkeeps : Keeps o (tntObjectType o type).2 := by
      unfold tntObjectType
      split_ifs
      · exact ⟨rfl, h⟩
      · exact ⟨rfl, h.length, h.size_le, h.alloc_pos⟩
    exact ⟨_, _, rfl, hkeeps, fun _ hne => absurd rfl (hne type)⟩
  | reset => exact absurd rfl hreset

/-! ## §4 — formats.

A format is a run of calls that ends at the first failure, and on such an object the first call that
writes fails. -/

omit [Msgpuck] in
/-- A conversion adds a leaf. -/
theorem Conv.call_adds {toFloat : UInt64 → UInt32} {conv : Conv} {args args' : List VaArg}
    {call : Call} (h : conv.call toFloat args = some (some call, args')) :
    call ≠ .reset ∧ ∀ t, call ≠ .setType t := by
  unfold Conv.call at h
  split at h
  all_goals first
    | (simp only [Option.some.injEq, Prod.mk.injEq] at h
       obtain ⟨rfl, -⟩ := h
       simp)
    | (simp at h; done)
    | (simp only [Option.bind_eq_bind, Option.bind_eq_some_iff, pure, Option.some.injEq,
        Prod.mk.injEq] at h
       obtain ⟨s, -, rfl, -⟩ := h
       simp)
    | (simp only [Option.bind_eq_bind, Option.bind_eq_some_iff, pure, Option.some.injEq,
        Prod.mk.injEq] at h
       obtain ⟨len, -, s, -, rfl, -⟩ := h
       simp)

omit [Msgpuck] in
/-- A format adds values, opens and closes; it neither resets nor changes the mode. -/
theorem directive_call {toFloat : UInt64 → UInt32} {f : List Char} {args args' : List VaArg}
    {call : Call} {skip : Nat} (h : directive toFloat f args = some (some call, skip, args')) :
    call ≠ .reset ∧ ∀ t, call ≠ .setType t := by
  unfold directive at h
  split at h
  case h_5 =>
    simp only [Option.bind_eq_bind, Option.bind_eq_some_iff, pure, Option.some.injEq, Prod.mk.injEq,
      Prod.exists] at h
    obtain ⟨conv, more, -, call', args₁, hcall, rfl, -, -⟩ := h
    exact Conv.call_adds hcall
  all_goals
    simp only [Option.some.injEq, Prod.mk.injEq, reduceCtorEq, false_and] at h
    try
      obtain ⟨rfl, -⟩ := h
      simp

/-- The loop of a format on a read-only object: it passes over the first characters and fails in its
first call. -/
theorem vformatLoop_fixed {toFloat : UInt64 → UInt32} (A : Nat → ObjAllocator) {o : Obj}
    (hfix : o.s.sb.fixed = true) (h : o.Stacked) (htype : o.type = .packed) {fmt : List Char}
    {skip : Nat} {args : List VaArg} (hmatch : Matches toFloat fmt skip args)
    (hsafe : ¬ (firstCall toFloat fmt skip args = some .containerClose ∧ o.Closable)) (k : Nat)
    (result : Int) :
    ∃ rv o', vformatLoop toFloat A fmt skip args k result o = some (rv, o') ∧ Keeps o o' := by
  have hmode : o.type ≠ .simple := by
    rw [htype]
    decide
  induction fmt generalizing skip args with
  | nil => exact ⟨result, o, by rw [vformatLoop], rfl, h⟩
  | cons c f ih =>
    cases skip with
    | succ skip =>
      rw [vformatLoop]
      exact ih hmatch hsafe
    | zero =>
      obtain ⟨call, skip, args', hdir, hrest⟩ := hmatch
      rw [firstCall, hdir] at hsafe
      simp only [vformatLoop, hdir, bind, Option.bind_some]
      cases call with
      | none => exact ih hrest hsafe
      | some call =>
        obtain ⟨hreset, hset⟩ := directive_call hdir
        -- only a closing bracket at the very start could patch
        have hcall : ¬ call.Patches o := by
          rintro ⟨rfl, -, hclosable⟩
          exact hsafe ⟨rfl, hclosable⟩
        obtain ⟨rv, o', hexec, hkeeps, hfails⟩ := Call.exec_fixed (A k) hfix h hreset hcall
        have hrv := hfails hmode hset
        refine ⟨-1, o', ?_, hkeeps⟩
        simp only [hexec, Option.bind_some, hrv, if_true, pure]

/-! ## §5 — runs.

The invariant over any uses; and for a use that patches, the bytes it writes. -/

/-- **A use of a read-only object.**  What it writes, it writes into its own arrays. -/
theorem Use.exec_fixed {toFloat : UInt64 → UInt32} (A : Nat → ObjAllocator) {o : Obj}
    (hfix : o.s.sb.fixed = true) (h : o.Stacked) {u : Use} (hproper : u.Proper toFloat)
    (hsafe : ¬ u.Patches toFloat o) :
    ∃ rv o', u.exec toFloat A o = some (rv, o') ∧ Keeps o o' := by
  cases u with
  | call c hreset =>
    obtain ⟨rv, o', hexec, hkeeps, -⟩ := Call.exec_fixed (A 0) hfix h hreset hsafe
    exact ⟨rv, o', hexec, hkeeps⟩
  | format fmt args =>
    simp only [Use.exec, tntObjectVformat, tntObjectType]
    by_cases hcnt : o.s.wrcnt > 0
    · simp only [if_pos hcnt, if_true]
      exact ⟨-1, o, rfl, rfl, h⟩
    · simp only [if_neg hcnt, show ¬ (0 : Int) = -1 by decide, if_false]
      have hst : ({ o with type := .packed } : Obj).Stacked := ⟨h.length, h.size_le, h.alloc_pos⟩
      obtain ⟨rv, o', hloop, hs, hst'⟩ := vformatLoop_fixed A (o := { o with type := .packed }) hfix
        hst rfl hproper hsafe 0 0
      exact ⟨rv, o', hloop, hs, hst'⟩

/-- The states an object over the user's `buf` goes through, as long as no use patches it. -/
inductive FixedReached (toFloat : UInt64 → UInt32) (buf : Bytes) : Obj → Prop
  | new {stack : List SboStack} (h : stack.length = 8) :
      FixedReached toFloat buf (tntObjectAs stack buf)
  | use {A : Nat → ObjAllocator} {o o' : Obj} {u : Use} {rv : Int} (h : FixedReached toFloat buf o)
      (hproper : u.Proper toFloat) (hsafe : ¬ u.Patches toFloat o)
      (hexec : u.exec toFloat A o = some (rv, o')) : FixedReached toFloat buf o'

/-- The buffer the user gave: its bytes, its size, and the room it has, which every `realloc` would
change. -/
def userBuf (buf : Bytes) : StreamBuf where
  data := .live buf
  size := buf.length
  alloc := buf.length
  rdoff := 0
  fixed := true

/-- **The invariant** of all uses. -/
theorem FixedReached.inv {toFloat : UInt64 → UInt32} {buf : Bytes} {o : Obj}
    (h : FixedReached toFloat buf o) : o.s.sb = userBuf buf ∧ o.Stacked := by
  induction h with
  | new hstack => exact ⟨rfl, hstack, Nat.zero_le 8, Nat.succ_pos 7⟩
  | use _ hproper hsafe hexec ih =>
    obtain ⟨hsb, hst⟩ := ih
    obtain ⟨rv', o₁, hexec', hs, hst'⟩ := Use.exec_fixed _ (by rw [hsb]; rfl) hst hproper hsafe
    rw [hexec] at hexec'
    obtain ⟨-, rfl⟩ := Prod.mk.inj (Option.some.inj hexec')
    exact ⟨by rw [hs, hsb], hst'⟩

/-- **Objects over a user's buffer are immutable** as long as no use closes an open container in the
sparse or the packed mode: in every state that is reached the buffer is the user's, byte for byte
and never reallocated, and the next use, with any allocator, writes nowhere else.  Adds are refused
because the write is; a close is not, since it writes into what is there already, and in the packed
mode it may even give the user's memory to `realloc`.  The invariant says that the buffer is the
user's and that the stack holds at most what failed adds have pushed. -/
theorem tntObjectAs_immutable {toFloat : UInt64 → UInt32} {buf : Bytes} {o : Obj}
    (h : FixedReached toFloat buf o) :
    o.s.sb = userBuf buf ∧
      ∀ (A : Nat → ObjAllocator) (u : Use), u.Proper toFloat → ¬ u.Patches toFloat o →
        ∃ rv o', u.exec toFloat A o = some (rv, o') := by
  obtain ⟨hsb, hst⟩ := h.inv
  refine ⟨hsb, ?_⟩
  intro A u hproper hsafe
  obtain ⟨rv, o', hexec, -⟩ := Use.exec_fixed A (by rw [hsb]; rfl) hst hproper hsafe
  exact ⟨rv, o', hexec⟩

end Calls

/-- An allocator that has nothing left. -/
def noMemory : ObjAllocator where
  realloc _ _ := none
  realloc_length _ _ _ h := by cases h
  realloc_keeps _ _ _ h := by cases h
  newStack _ := none
  newStack_length _ _ h := by cases h

/-- A stack as `tnt_mem_alloc` gives it. -/
def zeroStack : List SboStack := List.replicate 8 ⟨0, 0, .array⟩

/-- An object over one byte, in the sparse mode, with an array that could not be added. -/
def openedFixed : Obj :=
  { tntObjectAs zeroStack [0x2a] with
    stack := zeroStack.set 0 ⟨1, 0, .array⟩, stackSize := 1, type := .sparse }

/-- A container is open, and a number is refused. -/
theorem tntObjectAs_immutable_opened :
    openedFixed.s.sb = userBuf [0x2a] ∧
      ∃ rv o', @Use.exec (fun _ => 0) Msgpuck.reference (fun _ => noMemory) openedFixed
        (.call (.addUint 7) (by simp)) = some (rv, o') := by
  let _ := Msgpuck.reference
  have hnew : FixedReached (fun _ => 0) [0x2a] (tntObjectAs zeroStack [0x2a]) := .new rfl
  have hsparse : FixedReached (fun _ => 0) [0x2a]
      { tntObjectAs zeroStack [0x2a] with type := .sparse } :=
    .use (A := fun _ => noMemory) (u := .call (.setType .sparse) (by simp)) hnew trivial
      (by rintro ⟨h, -⟩; cases h) rfl
  have hopened : FixedReached (fun _ => 0) [0x2a] openedFixed :=
    .use (A := fun _ => noMemory) (u := .call (.addArray 0) (by simp)) hsparse trivial
      (by rintro ⟨h, -⟩; cases h) rfl
  obtain ⟨hsb, hnext⟩ := tntObjectAs_immutable hopened
  exact ⟨hsb, hnext _ _ trivial (by rintro ⟨h, -⟩; cases h)⟩

/-- Closing the array that was refused: five bytes go behind the user's only one. -/
theorem tntObjectAs_close_writes_behind :
    (∃ o, @Call.exec Msgpuck.reference noMemory (tntObjectAs zeroStack [0x2a]) (.setType .sparse) =
        some (0, o) ∧
      @Call.exec Msgpuck.reference noMemory o (.addArray 0) = some (-1, openedFixed)) ∧
    openedFixed.stack[0]? = some ⟨1, 0, .array⟩ ∧
    @sparseHeader Msgpuck.reference .array 0 = [0xdd, 0, 0, 0, 0] ∧
    @Call.exec Msgpuck.reference noMemory openedFixed .containerClose = none := by
  refine ⟨⟨_, rfl, rfl⟩, rfl, ?_, ?_⟩
  · decide
  · decide

end TarantoolC.Object
