/-
# TarantoolC.Object.Calls — what one call can do, whatever the allocator answers.

`TarantoolC.Object.Correct` follows calls whose allocations succeed.  Here every answer of the
allocator is allowed, and every object that calls lead to: new ones, ones over a user's buffer, ones
whose block was released by a failed `realloc`.  Each function gets one lemma that says everything
it can do (`Written.owned`, `addContainer_cases`, `containerClose_cases`); the invariant `Obj.Sane`
holds in every state reached.

The lemmas are INVERSIONS: from a call that ended, the cases in which it can have ended, each with
the object it has left.  What follows a call (`Object.Failure`, `Object.Nesting`, `Object.Verify`,
`Object.Simple`) is a case analysis over one of them and never opens a definition of `Object.Model`
again.

* `Written` — a call that writes bytes does so in one of three ways (`write`, or `writev` with a
  vector of the same bytes, or not at all on a fixed buffer); `Written.owned` says what comes of it
  on a buffer in order;
* `Room` — the array that a container is pushed to: the one there is, or a new one in its place,
  with any content;
* `Reached` — everything that calls lead to, from new objects and from objects over a user's buffer,
  and resets in between;
* `Sane` — in all these, the stack array is as long as its count says, and no more entries are in
  use than it has.
-/
import TarantoolC.Object.Correct
import TarantoolC.Object.Fixed

namespace TarantoolC.Object

open MsgPack Msgpuck

/-! ## §1 — writes.

A write appends, or fails and leaves the bytes, or fails and loses the block.  On a buffer of the
user's it does nothing at all. -/

/-- The object after a failed reallocation: its block is released and nothing else has changed. -/
def Obj.freed (o : Obj) : Obj :=
  { o with s := { o.s with sb := { o.s.sb with data := o.s.sb.data.free } } }

/-- The object after a write into the buffer `sb`. -/
def Obj.wrote (o : Obj) (sb : StreamBuf) : Obj :=
  { o with s := { o.s with sb := sb, wrcnt := o.s.wrcnt + 1 } }

/-- `bs` was appended to the buffer, in its block or in a larger one. -/
structure Appends (sb : StreamBuf) (bs : Bytes) (sb' : StreamBuf) : Prop where
  wf : sb'.WF
  bytes : sb'.bytes = sb.bytes ++ bs
  block : (sb.size + bs.length ≤ sb.alloc ∧ sb'.alloc = sb.alloc ∧
      sb.data.store sb.size bs = some sb'.data) ∨
    (sb.alloc < sb.size + bs.length ∧ sb'.alloc ≤ 2 * (sb.size + bs.length))

/-- An append makes the buffer longer by what was appended. -/
theorem Appends.size {sb sb' : StreamBuf} {bs : Bytes} (h : Appends sb bs sb') (hsb : sb.WF) :
    sb'.size = sb.size + bs.length := by
  rw [← h.wf.bytes_length, h.bytes, List.length_append, hsb.bytes_length]

/-- The two ways of the API to append bytes: `s->write` and `s->writev`. -/
def Written (A : ObjAllocator) (o : Obj) (bs : Bytes) (r : Option (Int × Obj)) : Prop :=
  r = write A o bs ∨ ∃ iov, r = writev A o iov ∧ iov.flatten = bs

section Writes

variable {A : ObjAllocator} {o : Obj} {bs : Bytes} {r : Option (Int × Obj)}

/-- Over a user's buffer a write is refused. -/
theorem Written.fixed (h : Written A o bs r) (hfix : o.s.sb.fixed = true) : r = some (-1, o) := by
  rcases h with rfl | ⟨iov, rfl, -⟩
  · exact write_fixed A hfix bs
  · exact writev_fixed A hfix iov

/-- Through a released pointer it is undefined.  If there is no room the pointer goes to `realloc`,
and if there is the bytes go through it. -/
theorem Written.dangling (h : Written A o bs r) (hfix : o.s.sb.fixed = false)
    (hfreed : o.s.sb.data = .freed) (hpos : 0 < bs.length) : r = none := by
  have hres : ∀ n, tntSbufObjectResize A.toAllocator o.s.sb n = none ∨
      tntSbufObjectResize A.toAllocator o.s.sb n = some (true, o.s.sb) := by
    intro n
    unfold tntSbufObjectResize
    split
    · exact .inl (by rw [hfreed]; rfl)
    · exact .inr rfl
  rcases h with rfl | ⟨iov, rfl, hiov⟩
  · unfold write tntBufWrite
    rcases hres bs.length with hno | hyes
    · simp [hfix, hno]
    · simp [hfix, hyes, hfreed, Block.store]
  · unfold writev tntBufWritev
    cases iov with
    | nil =>
      subst hiov
      simp at hpos
    | cons v iov =>
      rcases hres ((v :: iov).map List.length).sum with hno | hyes
      · simp only [hfix, hno, bind, Option.bind_none, Bool.false_eq_true, if_false]
      · simp only [hfix, hyes, hfreed, storeAll, Block.store, bind, Option.bind_some,
          Option.bind_none, Bool.false_eq_true, Bool.not_true, if_false]

/-- Without room, and without memory for more, the write fails. -/
theorem Written.short (h : Written A o bs r) (hwf : o.s.sb.WF)
    (hres : tntSbufObjectResize A.toAllocator o.s.sb bs.length =
      some (false, { o.s.sb with data := o.s.sb.data.free })) : r = some (-1, o.freed) := by
  rcases h with rfl | ⟨iov, rfl, rfl⟩
  · simp only [write, tntBufWrite, hwf.owned, hres, bind, Option.bind_some, pure,
      Bool.false_eq_true, if_false, Bool.not_false, if_true, Obj.freed]
  · have hsum : (iov.map List.length).sum = iov.flatten.length := by
      simp [List.length_flatten]
    simp only [writev, tntBufWritev, hwf.owned, hsum, hres, bind, Option.bind_some, pure,
      Bool.false_eq_true, if_false, Bool.not_false, if_true, Obj.freed]

/-- **Appending to a buffer in order** fails, and the block is gone, or appends.  Which of the two
is up to the allocator, and a write that needs no more room does not ask it. -/
theorem Written.owned (h : Written A o bs r) (hwf : o.s.sb.WF) (hpos : 0 < bs.length) :
    (r = some (-1, o.freed) ∧ ¬ A.toAllocator.Succeeds ∧
      o.s.sb.alloc < o.s.sb.size + bs.length) ∨
      ∃ sb', r = some ((bs.length : Int), o.wrote sb') ∧ Appends o.s.sb bs sb' := by
  rcases tntSbufObjectResize_cases A.toAllocator hwf bs.length with
    ⟨hlt, hres, old, m, hm, hno⟩ | ⟨hroom, hres⟩ |
    ⟨nd, newsize, hlt, hge, hle, hres, hlen, htake⟩
  · refine .inl ⟨h.short hwf hres, ?_, hlt⟩
    intro hA
    obtain ⟨new, hre⟩ := hA old m hm
    rw [hno] at hre
    exact absurd hre (by simp)
  · -- the block stays where it is
    have hr : r = (tntBufWrite tntSbufObjectResize A.toAllocator o.s bs).bind
        fun p => some (p.1, { o with s := p.2 }) := by
      rcases h with rfl | ⟨iov, rfl, rfl⟩
      · rfl
      · rw [← tntBufWritev_eq hwf.owned hres hwf hroom hpos]
        rfl
    obtain ⟨mem, hw, hstore, hwf', htake⟩ :=
      tntBufWrite_roomed hwf.owned hres hwf rfl hroom hpos
    refine .inr ⟨_, by rw [hr, hw]; rfl, hwf', htake, .inl ⟨hroom, rfl, hstore⟩⟩
  · set sb₁ : StreamBuf := { o.s.sb with data := .live nd, alloc := newsize } with hsb₁
    have hwf₁ : sb₁.WF := by
      refine ⟨hwf.owned, .inr ⟨nd, rfl, hlen⟩, ?_⟩
      have hsize := hwf.size_le
      show o.s.sb.size ≤ newsize
      omega
    have hr : r = (tntBufWrite tntSbufObjectResize A.toAllocator o.s bs).bind
        fun p => some (p.1, { o with s := p.2 }) := by
      rcases h with rfl | ⟨iov, rfl, rfl⟩
      · rfl
      · rw [← tntBufWritev_eq hwf.owned hres hwf₁ hge hpos]
        rfl
    obtain ⟨mem, hw, -, hwf', htake'⟩ :=
      tntBufWrite_roomed hwf.owned hres hwf₁ htake hge hpos
    exact .inr ⟨_, by rw [hr, hw]; rfl, hwf', htake', .inr ⟨hlt, hle⟩⟩

end Writes

/-! ## §2 — the stack.

Opening a container on an array with room, on a full one that can be replaced, and on one that
cannot. -/

/-- The kind of container a call opens. -/
def Call.opens : Call → Option Kind
  | .addArray _ => some .array
  | .addMap _ => some .map
  | _ => none

/-- The call adds a value or opens a container. -/
def Call.Adds (c : Call) : Prop := c.leafValue ≠ none ∨ c.opens ≠ none

/-- The stack array `addContainer` pushes to: the one it has, or a new one in its place. -/
inductive Room (A : ObjAllocator) (o : Obj) : List SboStack → Nat → Prop
  | inPlace (h : o.stackSize < o.stackAlloc) : Room A o o.stack o.stackAlloc
  | grown {stack : List SboStack} (hfull : o.stackSize = o.stackAlloc) (hlimit : o.stackAlloc ≠ 128)
      (h : A.newStack (2 * o.stackAlloc) = some stack) : Room A o stack (2 * o.stackAlloc)

/-- The object with one more entry on the array `stack`. -/
def Obj.push (o : Obj) (stack : List SboStack) (alloc : Nat) (kind : Kind) : Obj :=
  { o with
    stack := stack.set o.stackSize ⟨o.s.sb.size, 0, kind⟩
    stackSize := o.stackSize + 1
    stackAlloc := alloc }

/-- The array pushed to has room for the entry.  So the push stays within the array. -/
theorem Room.length {A : ObjAllocator} {o : Obj} {stack : List SboStack} {alloc : Nat}
    (h : Room A o stack alloc) (ho : o.Stacked) : stack.length = alloc ∧ o.stackSize < alloc := by
  cases h with
  | inPlace hlt => exact ⟨ho.length, hlt⟩
  | grown hfull hlimit hnew =>
    have hpos := ho.alloc_pos
    exact ⟨A.newStack_length _ _ hnew, by omega⟩

/-- Counting an element pushes nothing. -/
@[simp] theorem countChild_stackSize (o : Obj) : (countChild o).stackSize = o.stackSize := by
  unfold countChild
  split <;> rfl

@[simp] theorem countChild_stackAlloc (o : Obj) : (countChild o).stackAlloc = o.stackAlloc := by
  unfold countChild
  split <;> rfl

/-- **Opening a container**: it counts itself in its parent, and is refused if the array is full and
cannot grow; else it is pushed, and its header is written. -/
theorem addContainer_cases (A : ObjAllocator) {o : Obj} (ho : o.Stacked) (kind : Kind)
    (simple : UInt32 → Bytes) (sp pk : Bytes) (size : UInt32) :
    (addContainer kind simple sp pk A o size = some (-1, countChild o) ∧
      o.stackSize = o.stackAlloc ∧
      (o.stackAlloc = 128 ∨ A.newStack (2 * o.stackAlloc) = none)) ∨
    ∃ stack alloc, Room A (countChild o) stack alloc ∧
      addContainer kind simple sp pk A o size = write A ((countChild o).push stack alloc kind)
        (match o.type with
        | .simple => simple size
        | .sparse => sp
        | .packed => pk) := by
  have hc := ho.countChild
  have hsize := countChild_stackSize o
  have halloc := countChild_stackAlloc o
  -- with an entry to spare the container is pushed, and its header written
  have hpush : ∀ stack alloc, Room A (countChild o) stack alloc →
      (if (countChild o).stackSize = (countChild o).stackAlloc
        then tntSbufObjectGrowStack A (countChild o) else (0, countChild o)) =
          (0, { countChild o with stack := stack, stackAlloc := alloc }) →
      addContainer kind simple sp pk A o size = write A ((countChild o).push stack alloc kind)
        (match o.type with
        | .simple => simple size
        | .sparse => sp
        | .packed => pk) := by
    intro stack alloc hroom hgrow
    obtain ⟨hlen, hlt⟩ := hroom.length hc
    unfold addContainer
    simp only [hgrow, show ¬ (0 : Int) = -1 by decide, if_false]
    rw [if_pos (by rw [hlen]; exact hlt)]
    cases ht : o.type with
    | simple => simp only [countChild_type, ht, Obj.push]
    | sparse => simp only [countChild_type, ht, Obj.push]
    | packed => simp only [countChild_type, ht, Obj.push]
  by_cases hfull : o.stackSize = o.stackAlloc
  · have hcfull : (countChild o).stackSize = (countChild o).stackAlloc := by
      rw [hsize, halloc, hfull]
    -- if the array cannot grow, the call ends behind the counting
    have hstop : tntSbufObjectGrowStack A (countChild o) = (-1, countChild o) →
        addContainer kind simple sp pk A o size = some (-1, countChild o) := by
      intro hgrow
      simp only [addContainer, if_pos hcfull, hgrow, if_true]
    by_cases hlimit : o.stackAlloc = 128
    · refine .inl ⟨hstop ?_, hfull, .inl hlimit⟩
      rw [tntSbufObjectGrowStack, if_pos (by rw [halloc, hlimit])]
    · have hclimit : (countChild o).stackAlloc ≠ 128 := by rwa [halloc]
      cases hnew : A.newStack (2 * o.stackAlloc) with
      | none =>
        refine .inl ⟨hstop ?_, hfull, .inr rfl⟩
        rw [tntSbufObjectGrowStack, if_neg hclimit, halloc, hnew]
      | some stack =>
        have hroom : Room A (countChild o) stack (2 * (countChild o).stackAlloc) :=
          .grown hcfull hclimit (by rw [halloc, hnew])
        refine .inr ⟨_, _, hroom, hpush _ _ hroom ?_⟩
        rw [if_pos hcfull, tntSbufObjectGrowStack, if_neg hclimit, halloc, hnew]
  · have hcne : (countChild o).stackSize ≠ (countChild o).stackAlloc := by rwa [hsize, halloc]
    have hroom : Room A (countChild o) (countChild o).stack (countChild o).stackAlloc :=
      .inPlace (Nat.lt_of_le_of_ne hc.size_le hcne)
    refine .inr ⟨_, _, hroom, hpush _ _ hroom ?_⟩
    rw [if_neg hcne]

/-! ## §3 — closing.

Nothing open, an odd number of items in a map, and then one case for each mode; the packed mode may
need room. -/

section Close

variable [Msgpuck] {A : ObjAllocator} {o : Obj}

/-- The innermost container cannot be closed: there is none, or it is a map with an odd number of
items. -/
def Obj.Unclosable (o : Obj) : Prop :=
  o.stackSize = 0 ∨ ∃ e, o.stack[o.stackSize - 1]? = some e ∧ e.type = .map ∧ e.size.toNat % 2 = 1

/-- The object with the innermost entry popped. -/
def Obj.pop (o : Obj) : Obj := { o with stackSize := o.stackSize - 1 }

/-- The object with another buffer. -/
def Obj.setBuf (o : Obj) (sb : StreamBuf) : Obj := { o with s := { o.s with sb := sb } }

/-- **Closing a container** is refused at once, or pops the entry and writes its header.  The entry
is gone before the header is written, and a header that finds no memory does not bring it back. -/
theorem containerClose_cases (A : ObjAllocator) (ho : o.Stacked) :
    (o.Unclosable ∧ tntObjectContainerClose A o = some (-1, o)) ∨
      ∃ e, ¬ o.Unclosable ∧ o.stack[o.stackSize - 1]? = some e ∧
        tntObjectContainerClose A o = writeHeader A o.pop e := by
  by_cases hempty : o.stackSize = 0
  · refine .inl ⟨.inl hempty, ?_⟩
    rw [tntObjectContainerClose, if_pos hempty]
  · obtain ⟨e, he⟩ := ho.top hempty
    by_cases hodd : e.type = .map ∧ e.size.toNat % 2 = 1
    · refine .inl ⟨.inr ⟨e, he, hodd⟩, ?_⟩
      rw [tntObjectContainerClose, if_neg hempty]
      simp only [he, bind, Option.bind_some, if_pos hodd, pure]
    · refine .inr ⟨e, ?_, he, ?_⟩
      · rintro (hzero | ⟨e', he', hodd'⟩)
        · exact hempty hzero
        · rw [he] at he'
          exact hodd (Option.some.inj he' ▸ hodd')
      · rw [tntObjectContainerClose, if_neg hempty]
        simp only [he, bind, Option.bind_some, if_neg hodd]
        rfl

omit [Msgpuck] in
/-- A resize touches the block and nothing else.  The size counts bytes that were written, and no
byte is written here. -/
theorem tntSbufObjectResize_keeps {A : Allocator} {sb sb' : StreamBuf} {n : Nat} {ok : Bool}
    (h : tntSbufObjectResize A sb n = some (ok, sb')) :
    sb'.size = sb.size ∧ sb'.fixed = sb.fixed ∧
      (ok = false → sb' = { sb with data := sb.data.free }) := by
  unfold tntSbufObjectResize at h
  split at h
  · simp only [bind, Option.bind_eq_some_iff] at h
    obtain ⟨old, -, h⟩ := h
    split at h
    · obtain ⟨rfl, rfl⟩ := Prod.mk.inj (Option.some.inj h)
      exact ⟨rfl, rfl, fun _ => rfl⟩
    · obtain ⟨rfl, rfl⟩ := Prod.mk.inj (Option.some.inj h)
      exact ⟨rfl, rfl, fun hok => absurd hok (by simp)⟩
  · obtain ⟨rfl, rfl⟩ := Prod.mk.inj (Option.some.inj h)
    exact ⟨rfl, rfl, fun hok => absurd hok (by simp)⟩

omit [Msgpuck] in
/-- Making room for a longer header moves bytes, and fails by losing the block. -/
theorem widen_keeps {sb sb' : StreamBuf} {offset sz : Nat} {ok : Bool}
    (h : widen A sb offset sz = some (ok, sb')) :
    sb'.size = sb.size ∧ sb'.fixed = sb.fixed ∧
      (ok = false → sb' = { sb with data := sb.data.free }) := by
  unfold widen at h
  split at h
  · simp only [bind, Option.bind_eq_some_iff] at h
    obtain ⟨⟨ok₁, sb₁⟩, hres, h⟩ := h
    obtain ⟨hsize, hfix, hfree⟩ := tntSbufObjectResize_keeps hres
    cases ok₁ with
    | false =>
      obtain ⟨rfl, rfl⟩ := Prod.mk.inj (Option.some.inj h)
      exact ⟨hsize, hfix, hfree⟩
    | true =>
      simp only [Bool.not_true, Bool.false_eq_true, if_false] at h
      split at h
      · exact absurd h (by simp)
      simp only [Option.bind_eq_some_iff] at h
      obtain ⟨data, -, h⟩ := h
      obtain ⟨rfl, rfl⟩ := Prod.mk.inj (Option.some.inj h)
      exact ⟨hsize, hfix, fun hok => absurd hok (by simp)⟩
  · obtain ⟨rfl, rfl⟩ := Prod.mk.inj (Option.some.inj h)
    exact ⟨rfl, rfl, fun hok => absurd hok (by simp)⟩

omit [Msgpuck] in
/-- Through a released pointer nothing can be moved.  If it succeeds there was nothing to move: the
header is one byte long and lies over its placeholder. -/
theorem widen_dangling {sb sb' : StreamBuf} {offset sz : Nat} (hfreed : sb.data = .freed)
    (h : widen A sb offset sz = some (true, sb')) : sb' = sb := by
  unfold widen at h
  split at h
  · unfold tntSbufObjectResize at h
    split at h
    · simp [hfreed, Block.contents] at h
    · simp [hfreed, Block.move] at h
  · exact (Prod.mk.inj (Option.some.inj h)).2.symm

/-- **Writing a header** succeeds on the buffer alone, or fails to make room for it.  Only a packed
header can be longer than the placeholder, so only there can memory be short. -/
theorem writeHeader_cases {e : SboStack} {rv : Int} {o' : Obj}
    (h : writeHeader A o e = some (rv, o')) :
    (rv = -1 ∧ o.type = .packed ∧ o' = o.freed) ∨
      ∃ sb, rv = 0 ∧ o' = o.setBuf sb ∧ sb.fixed = o.s.sb.fixed ∧ (o.s.sb.WF → sb.WF) ∧
        (o.s.sb.data = .freed → sb.data = .freed) := by
  obtain ⟨s, stack, stackSize, stackAlloc, type⟩ := o
  unfold writeHeader at h
  cases type with
  | simple =>
    obtain ⟨rfl, rfl⟩ := Prod.mk.inj (Option.some.inj h)
    exact .inr ⟨s.sb, rfl, rfl, rfl, id, id⟩
  | sparse =>
    simp only [bind, Option.bind_eq_some_iff] at h
    obtain ⟨data, hs, h⟩ := h
    obtain ⟨rfl, rfl⟩ := Prod.mk.inj (Option.some.inj h)
    refine .inr ⟨_, rfl, rfl, rfl, fun hwf => store_wf hwf hs, ?_⟩
    intro hfreed
    rw [show s.sb.data = .freed from hfreed] at hs
    exact absurd hs (by simp [Block.store])
  | packed =>
    simp only [bind, Option.bind_eq_some_iff] at h
    obtain ⟨⟨ok, sb⟩, hw, h⟩ := h
    -- the header may be wider than its place: first the bytes behind it move
    obtain ⟨-, hfix, hfree⟩ := widen_keeps hw
    cases ok with
    | false =>
      obtain ⟨rfl, rfl⟩ := Prod.mk.inj (Option.some.inj h)
      refine .inl ⟨rfl, rfl, ?_⟩
      simp only [hfree, Obj.freed]
    | true =>
      simp only [Bool.not_true, Bool.false_eq_true, if_false, Option.bind_eq_some_iff] at h
      obtain ⟨data, hs, h⟩ := h
      obtain ⟨rfl, rfl⟩ := Prod.mk.inj (Option.some.inj h)
      refine .inr ⟨_, rfl, rfl, hfix, ?_, ?_⟩
      · intro hwf
        rcases widen_cases hwf hw with ⟨hok, -⟩ | ⟨-, hwf', hroom⟩
        · exact absurd hok (by simp)
        · have hst := store_wf hwf' hs
          exact ⟨hst.owned, hst.block, hroom⟩
      · intro hfreed
        rw [widen_dangling hfreed hw, show s.sb.data = .freed from hfreed] at hs
        exact absurd hs (by simp [Block.store])

end Close

/-! ## §4 — states that are reached.

Any calls, from any start, with any answers of the allocator: the object is sane. -/

section Reach

variable [Msgpuck] {A : ObjAllocator} {o : Obj}

/-- The header a call opens a container with, in a mode.  With the real size, or with a placeholder
that the closing call writes over. -/
def Call.openingBytes (type : SboType) : Call → Bytes
  | .addArray size =>
    match type with
    | .simple => mpEncodeArray size
    | .sparse => mpEncodeArray32 0
    | .packed => mpEncodeArray 0
  | .addMap size =>
    match type with
    | .simple => mpEncodeMap size
    | .sparse => mpEncodeMap32 0
    | .packed => mpEncodeMap 0
  | _ => []

/-- `addContainer_cases` for the two calls that open a container.  It is refused where the stack
array is full and does not grow; else the entry is pushed first and the header written then. -/
theorem Call.exec_opens (A : ObjAllocator) (ho : o.Stacked) {c : Call} {kind : Kind}
    (hc : c.opens = some kind) :
    (c.exec A o = some (-1, countChild o) ∧ o.stackSize = o.stackAlloc ∧
      (o.stackAlloc = 128 ∨ A.newStack (2 * o.stackAlloc) = none)) ∨
    ∃ stack alloc, Room A (countChild o) stack alloc ∧
      c.exec A o = write A ((countChild o).push stack alloc kind) (c.openingBytes o.type) := by
  cases c with
  | addArray size =>
    obtain rfl := Option.some.inj hc
    have h := addContainer_cases A ho .array mpEncodeArray (mpEncodeArray32 0) (mpEncodeArray 0) size
    cases ht : o.type <;> rw [ht] at h <;> exact h
  | addMap size =>
    obtain rfl := Option.some.inj hc
    have h := addContainer_cases A ho .map mpEncodeMap (mpEncodeMap32 0) (mpEncodeMap 0) size
    cases ht : o.type <;> rw [ht] at h <;> exact h
  | _ => exact absurd hc (by simp [Call.opens])

/-- A header has at least one byte.  `Written.dangling` asks for that. -/
theorem Call.openingBytes_pos {c : Call} {kind : Kind} (hc : c.opens = some kind)
    (type : SboType) : 0 < (c.openingBytes type).length := by
  have hmap : ∀ n : UInt32, 0 < (mpEncodeMap n).length := by
    intro n
    rw [mpEncodeMap_eq]
    obtain ⟨b, l, ds, heq, -, -⟩ :=
      Form.min_spec mapForm_agrees (packed_sound.map_covers _ n.toNat_lt)
    rw [heq, List.length_cons]
    omega
  have harray : ∀ n : UInt32, 0 < (mpEncodeArray n).length := by
    intro n
    rw [mpEncodeArray_eq]
    exact header_length_pos packed_sound .array n.toNat_lt
  cases c with
  | addArray size =>
    cases type with
    | simple => exact harray size
    | sparse => simp [Call.openingBytes, mpEncodeArray32]
    | packed => exact harray 0
  | addMap size =>
    cases type with
    | simple => exact hmap size
    | sparse => simp [Call.openingBytes, mpEncodeMap32]
    | packed => exact hmap 0
  | _ => exact absurd hc (by simp [Call.opens])

/-- A mode that counts children opens a container with its placeholder.  The size in the call is not
used. -/
theorem Call.openingBytes_style {c : Call} {kind : Kind} (hc : c.opens = some kind)
    {type : SboType} {S : Style} (hS : type.style = some S) :
    c.openingBytes type = kind.placeholder S := by
  cases type with
  | simple => exact absurd hS (by simp [SboType.style])
  | sparse =>
    obtain rfl := Option.some.inj hS
    cases c with
    | addArray size => obtain rfl := Option.some.inj hc; simp [openingBytes, mpEncodeArray32]; rfl
    | addMap size => obtain rfl := Option.some.inj hc; simp [openingBytes, mpEncodeMap32]; rfl
    | _ => exact absurd hc (by simp [Call.opens])
  | packed =>
    obtain rfl := Option.some.inj hS
    cases c with
    | addArray size => obtain rfl := Option.some.inj hc; simp [openingBytes]; rfl
    | addMap size => obtain rfl := Option.some.inj hc; simp [openingBytes]; rfl
    | _ => exact absurd hc (by simp [Call.opens])

/-- A leaf call counts itself in its parent and appends. -/
theorem Call.exec_written {c : Call} {v : Value} (h : c.leafValue = some v) (A : ObjAllocator)
    (o : Obj) : Written A (countChild o) (encode v) (c.exec A o) ∧ 0 < (encode v).length := by
  refine ⟨Call.exec_leaf h A o, ?_⟩
  exact (encodes_encodeWith packed_sound v (Call.leafValue_fits h).1).length_pos

omit [Msgpuck] in
/-- The lines of `tnt_object_as` that turn an object into one over a user's buffer. -/
def Obj.asUser (o : Obj) (buf : Bytes) : Obj :=
  { o with s := { o.s with sb := { o.s.sb with
      data := .live buf, size := buf.length, alloc := buf.length, fixed := true } } }

/-- Objects that calls lead to, whatever the allocator answers. -/
inductive Reached : Obj → Prop
  | new {stack : List SboStack} (h : stack.length = 8) : Reached (tntObject stack)
  | asUser {o : Obj} (h : Reached o) (buf : Bytes) : Reached (o.asUser buf)
  | call {A : ObjAllocator} {o o' : Obj} {c : Call} {rv : Int} (h : Reached o)
      (hc : c.exec A o = some (rv, o')) : Reached o'

/-- What holds of every object: the stack array is one of five sizes, and the buffer belongs to a
user, or was released, or is in order. -/
structure Obj.Sane (o : Obj) : Prop where
  stacked : o.Stacked
  alloc : o.stackAlloc ∈ [8, 16, 32, 64, 128]
  buf : o.s.sb.fixed = true ∨ o.s.sb.fixed = false ∧ o.s.sb.data = .freed ∨ o.s.sb.WF

omit [Msgpuck] in
/-- The parts of a call, one by one, keep the object sane: counting, ... -/
theorem Obj.Sane.countChild (h : o.Sane) : (Object.countChild o).Sane := by
  refine ⟨h.stacked.countChild, ?_, ?_⟩
  · rw [countChild_stackAlloc]
    exact h.alloc
  · rw [countChild_s]
    exact h.buf

omit [Msgpuck] in
/-- ... losing the block, ... -/
theorem Obj.Sane.freed (h : o.Sane) : o.freed.Sane := by
  refine ⟨⟨h.stacked.length, h.stacked.size_le, h.stacked.alloc_pos⟩, h.alloc, ?_⟩
  rcases h.buf with hfix | ⟨hfix, hfreed⟩ | hwf
  · exact .inl hfix
  · refine .inr (.inl ⟨hfix, ?_⟩)
    show o.s.sb.data.free = .freed
    rw [hfreed]
    rfl
  · rcases hwf.block with ⟨hnull, halloc⟩ | ⟨mem, hlive, -⟩
    · refine .inr (.inr ⟨hwf.owned, .inl ⟨?_, halloc⟩, hwf.size_le⟩)
      show o.s.sb.data.free = .null
      rw [hnull]
      rfl
    · refine .inr (.inl ⟨hwf.owned, ?_⟩)
      show o.s.sb.data.free = .freed
      rw [hlive]
      rfl

omit [Msgpuck] in
/-- A write keeps everything in order, also when it fails.  A buffer that is not fixed is in order
or has been released, and a write takes it from the one to the other at most. -/
theorem Written.sane {bs : Bytes} {rv : Int} {o' : Obj} (h : Written A o bs (some (rv, o')))
    (ho : o.Sane) (hpos : 0 < bs.length) : o'.Sane := by
  rcases ho.buf with hfix | ⟨hfix, hfreed⟩ | hwf
  · obtain ⟨-, rfl⟩ := Prod.mk.inj (Option.some.inj (h.fixed hfix))
    exact ho
  · exact absurd (h.dangling hfix hfreed hpos) (by simp)
  · rcases h.owned hwf hpos with ⟨hr, -⟩ | ⟨sb', hr, happ⟩
    · obtain ⟨-, rfl⟩ := Prod.mk.inj (Option.some.inj hr)
      exact ho.freed
    · obtain ⟨-, rfl⟩ := Prod.mk.inj (Option.some.inj hr)
      exact ⟨⟨ho.stacked.length, ho.stacked.size_le, ho.stacked.alloc_pos⟩, ho.alloc,
        .inr (.inr happ.wf)⟩

omit [Msgpuck] in
/-- ... and pushing an entry.  If the array has grown it has the next of the five sizes. -/
theorem Room.sane {stack : List SboStack} {alloc : Nat} (h : Room A o stack alloc) (ho : o.Sane)
    (kind : Kind) : (o.push stack alloc kind).Sane := by
  obtain ⟨hlen, hlt⟩ := h.length ho.stacked
  refine ⟨⟨?_, hlt, ?_⟩, ?_, ho.buf⟩
  · show (stack.set _ _).length = alloc
    rw [List.length_set, hlen]
  · show 0 < alloc
    omega
  · show alloc ∈ _
    have halloc := ho.alloc
    cases h with
    | inPlace => exact halloc
    | grown _ hlimit _ =>
      simp only [List.mem_cons, List.not_mem_nil, or_false] at halloc ⊢
      omega

/-- **Every call keeps the object sane.**  Also one that fails, and one that loses the block.  The
step lemma, one case for each kind of call. -/
theorem Call.exec_sane {c : Call} {rv : Int} {o' : Obj} (ho : o.Sane)
    (h : c.exec A o = some (rv, o')) : o'.Sane := by
  cases hv : c.leafValue with
  | some v =>
    obtain ⟨hw, hpos⟩ := Call.exec_written hv A o
    rw [h] at hw
    exact hw.sane ho.countChild hpos
  | none =>
    cases hk : c.opens with
    | some kind =>
      rcases Call.exec_opens A ho.stacked hk with ⟨hr, -, -⟩ | ⟨stack, alloc, hroom, hr⟩
      · rw [h] at hr
        obtain ⟨-, rfl⟩ := Prod.mk.inj (Option.some.inj hr)
        exact ho.countChild
      · rw [h] at hr
        -- the entry is on the stack, and the opening bytes are written like a value
        have hw : Written A ((Object.countChild o).push stack alloc kind) (c.openingBytes o.type)
            (some (rv, o')) := .inl hr
        exact hw.sane (hroom.sane ho.countChild kind) (Call.openingBytes_pos hk o.type)
    | none =>
      cases c with
      | containerClose =>
        have h : tntObjectContainerClose A o = some (rv, o') := h
        rcases containerClose_cases A ho.stacked with ⟨-, hr⟩ | ⟨e, -, -, hr⟩
        · rw [hr] at h
          obtain ⟨-, rfl⟩ := Prod.mk.inj (Option.some.inj h)
          exact ho
        · rw [hr] at h
          -- the entry is taken off before the header is written
          have hpop : o.pop.Sane := by
            refine ⟨⟨ho.stacked.length, ?_, ho.stacked.alloc_pos⟩, ho.alloc, ho.buf⟩
            exact (Nat.sub_le _ _).trans ho.stacked.size_le
          rcases writeHeader_cases h with ⟨-, -, rfl⟩ | ⟨sb, -, rfl, hfix, hwf, hfreed⟩
          · exact hpop.freed
          · refine ⟨⟨hpop.stacked.length, hpop.stacked.size_le, hpop.stacked.alloc_pos⟩, hpop.alloc,
              ?_⟩
            show sb.fixed = true ∨ sb.fixed = false ∧ sb.data = .freed ∨ sb.WF
            rw [hfix]
            exact hpop.buf.imp_right fun hb => hb.imp (fun hd => ⟨hd.1, hfreed hd.2⟩) hwf
      | setType type =>
        rcases tntObjectType_cases (Option.some.inj h) with ⟨-, rfl⟩ | ⟨-, rfl⟩
        · exact ho
        · exact ⟨⟨ho.stacked.length, ho.stacked.size_le, ho.stacked.alloc_pos⟩, ho.alloc, ho.buf⟩
      | reset =>
        obtain ⟨-, rfl⟩ := Prod.mk.inj (Option.some.inj h)
        refine ⟨⟨ho.stacked.length, Nat.zero_le _, ho.stacked.alloc_pos⟩, ho.alloc, ?_⟩
        exact ho.buf.imp_right fun hb => hb.imp_right fun hwf =>
          ⟨hwf.owned, hwf.block, Nat.zero_le _⟩
      | addArray size => exact absurd hk (by simp [Call.opens])
      | addMap size => exact absurd hk (by simp [Call.opens])
      | _ => exact absurd hv (by simp [Call.leafValue])

/-- **Every object that is reached is sane.**  By induction on the run. -/
theorem Reached.sane (h : Reached o) : o.Sane := by
  induction h with
  | new hs =>
    exact ⟨⟨hs, Nat.zero_le 8, Nat.succ_pos 7⟩, List.mem_cons_self, .inr (.inr tntBuf_wf)⟩
  | asUser _ buf ih =>
    exact ⟨⟨ih.stacked.length, ih.stacked.size_le, ih.stacked.alloc_pos⟩, ih.alloc, .inl rfl⟩
  | call _ hc ih => exact Call.exec_sane ih hc

/-- A run leads from states that are reached to such states. -/
theorem Reached.run {calls : List (ObjAllocator × Call)} {rvs : List Int} {o' : Obj} (h : Reached o)
    (hrun : runCalls calls o = some (rvs, o')) : Reached o' := by
  induction calls generalizing o rvs with
  | nil =>
    obtain ⟨-, rfl⟩ := Prod.mk.inj (Option.some.inj hrun)
    exact h
  | cons p calls ih =>
    obtain ⟨A, c⟩ := p
    simp only [runCalls, bind, Option.bind_eq_some_iff] at hrun
    obtain ⟨⟨rv, o₁⟩, hc, ⟨rvs', o₂⟩, hrest, hend⟩ := hrun
    obtain ⟨-, rfl⟩ := Prod.mk.inj (Option.some.inj hend)
    exact ih (h.call hc) hrest

end Reach

end TarantoolC.Object
