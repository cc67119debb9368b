/-
# TarantoolC.Object.Correct — the object's buffer refines the ideal builder.

`Obj.build` reads an object as a state of the ideal builder: the bytes in use, and the used part of
the stack array turned innermost first.  One call of the API is one step of the ideal builder
(`Call.exec_yields`), as long as the ideal builder has that step and allocation succeeds; a run of
calls is a run of steps (`runCalls_yields`).  With `Build.run_emits` the bytes of a replayed value
are then its encoding.

The hard step is closing a container in `TNT_SBO_PACKED` mode: the one-byte placeholder grows to
three or five bytes, in a block that may just have moved, with everything behind it shifted.

## The layers of the proof.

* memory — `tntSbufObjectResize_spec`: room is made and the bytes stay, whether the block moves or
  not (`Resize.Spec` of `TarantoolC.Buf`);
* leaves — a write appends and nothing else changes (`write_yields`, `writev_yields`), whatever its
  bytes are; which bytes a leaf has is `Call.leafValue`;
* containers — opening appends the placeholder and pushes an entry; closing replaces the placeholder
  (`tntObjectContainerClose_yields`), where the bytes behind it are moved by `memmove` first;
* calls and runs — `Call.exec_yields` collects them, and `Reachable.wf` says that every object which
  successful and failing calls lead to is in order, as long as the block was not lost.

`Obj.WF` is the invariant.  The used part of the stack and the array behind it are kept apart by
`openFrames`, which reads the first `n` entries only: what stands in the others is of no account.
-/
import TarantoolC.Object.Model

namespace TarantoolC.Object

open MsgPack Msgpuck

/-! ## §1 — the object as a state of the ideal builder.

`Obj.build` forgets what the ideal builder does not have: the address and the size of the block, the
room behind the bytes in use, the length of the stack array, the write counter.  `Obj.WF` says that
what is forgotten is in order, and `Yields` is the shape of all results below. -/

/-- An entry of the stack array as an open container. -/
def SboStack.frame (e : SboStack) : Frame := ⟨e.offset, e.size.toNat, e.type⟩

/-- The first `n` entries of the stack array, innermost first. -/
def openFrames (stack : List SboStack) (n : Nat) : List Frame :=
  ((stack.take n).map SboStack.frame).reverse

def Obj.frames (o : Obj) : List Frame := openFrames o.stack o.stackSize

def Obj.build (o : Obj) : Build := ⟨o.bytes, o.frames⟩

/-- An object in order: its buffer is, and its stack array has the announced size. -/
structure Obj.WF (o : Obj) : Prop where
  buf : o.s.sb.WF
  stack_length : o.stack.length = o.stackAlloc
  alloc_ge : 8 ≤ o.stackAlloc
  size_le : o.stackSize ≤ o.stackAlloc

/-- The style a mode writes container headers in; `TNT_SBO_SIMPLE` trusts the caller's sizes. -/
def SboType.style : SboType → Option Style
  | .simple => none
  | .sparse => some MsgPack.sparse
  | .packed => some MsgPack.packed

/-- The call returns something other than -1, and the object is in order and shows `b`. -/
def Yields (r : Option (Int × Obj)) (type : SboType) (b : Build) : Prop :=
  ∃ rv o', r = some (rv, o') ∧ rv ≠ -1 ∧ o'.WF ∧ o'.type = type ∧ o'.build = b

/-- No entries in use, ... -/
theorem openFrames_zero (stack : List SboStack) : openFrames stack 0 = [] := rfl

/-- ... one more, the innermost, ... -/
theorem openFrames_succ {stack : List SboStack} {n : Nat} {e : SboStack}
    (h : stack[n]? = some e) : openFrames stack (n + 1) = e.frame :: openFrames stack n := by
  unfold openFrames
  rw [List.take_add_one, h]
  simp

/-- ... as many as are in use. -/
theorem openFrames_length {stack : List SboStack} {n : Nat} (h : n ≤ stack.length) :
    (openFrames stack n).length = n := by
  unfold openFrames
  rw [List.length_reverse, List.length_map, List.length_take_of_le h]

/-- Entries from `n` on do not count. -/
theorem openFrames_set {stack : List SboStack} {n : Nat} {e : SboStack} :
    openFrames (stack.set n e) n = openFrames stack n := by
  unfold openFrames
  rw [List.take_set_of_le (Nat.le_refl n)]

/-- An entry that is not in use may be changed. -/
theorem openFrames_modify {stack : List SboStack} {n : Nat} {f : SboStack → SboStack} :
    openFrames (stack.modify n f) n = openFrames stack n := by
  unfold openFrames
  rw [List.take_modify, List.modify_eq_self]
  rw [List.length_take]
  exact Nat.min_le_left _ _

/-- The entries in use are as many as the count says. -/
theorem Obj.WF.frames_length {o : Obj} (h : o.WF) : o.frames.length = o.stackSize :=
  openFrames_length (by rw [h.stack_length]; exact h.size_le)

/-- So are the bytes. -/
theorem Obj.WF.bytes_length {o : Obj} (h : o.WF) : o.bytes.length = o.s.sb.size :=
  h.buf.bytes_length

/-- The innermost entry of a non-empty stack.  The stack array is at least as long as the stack is
high. -/
theorem Obj.WF.top {o : Obj} (h : o.WF) {n : Nat} (hn : o.stackSize = n + 1) :
    ∃ e, o.stack[n]? = some e ∧ o.frames = e.frame :: openFrames o.stack n := by
  have hlt : n < o.stack.length := by
    rw [h.stack_length]
    have := h.size_le
    omega
  refine ⟨o.stack[n], List.getElem?_eq_getElem hlt, ?_⟩
  rw [Obj.frames, hn]
  exact openFrames_succ (List.getElem?_eq_getElem hlt)

/-! ## §2 — memory.

Three ways of making room end here: there is room, the block is enlarged where it is, it is moved.
Nothing above this section distinguishes between them. -/

/-- What `tnt_sbuf_object_resize` can do to a buffer in order: release the block and fail, leave it
where there is room already, or move it into a larger one. -/
theorem tntSbufObjectResize_cases (A : Allocator) {sb : StreamBuf} (hsb : sb.WF) (n : Nat) :
    (sb.alloc < sb.size + n ∧
      tntSbufObjectResize A sb n = some (false, { sb with data := sb.data.free }) ∧
      ∃ old m, 0 < m ∧ A.realloc old m = none) ∨
    (sb.size + n ≤ sb.alloc ∧ tntSbufObjectResize A sb n = some (true, sb)) ∨
    ∃ nd newsize, sb.alloc < sb.size + n ∧ sb.size + n ≤ newsize ∧ newsize ≤ 2 * (sb.size + n) ∧
      tntSbufObjectResize A sb n = some (true, { sb with data := .live nd, alloc := newsize }) ∧
      nd.length = newsize ∧ nd.take sb.size = sb.bytes := by
  have hsize := hsb.size_le
  by_cases hroom : sb.size + n > sb.alloc
  · set newsize := if 2 * sb.alloc < sb.size + n then sb.size + n else 2 * sb.alloc with hnew
    have hge : sb.size + n ≤ newsize := by rw [hnew]; split <;> omega
    have hle : newsize ≤ 2 * (sb.size + n) := by rw [hnew]; split <;> omega
    -- what `realloc` is given: a null pointer, or the block
    obtain ⟨old, hold, hlen, hbytes⟩ : ∃ old, sb.data.contents = some old ∧
        old.length = sb.alloc ∧ old.take sb.size = sb.bytes := by
      rcases hsb.block with ⟨hd, ha⟩ | ⟨mem, hd, hm⟩
      · refine ⟨[], ?_, by simp [ha], ?_⟩
        · rw [hd]; rfl
        · simp [StreamBuf.bytes, hd]
      · refine ⟨mem, ?_, hm, ?_⟩
        · rw [hd]; rfl
        · simp [StreamBuf.bytes, hd]
    cases hre : A.realloc old newsize with
    | none =>
      refine .inl ⟨hroom, ?_, old, newsize, by omega, hre⟩
      simp only [tntSbufObjectResize, if_pos hroom, hold, bind, Option.bind_some, pure, ← hnew, hre]
    | some nd =>
      have hnl := A.realloc_length old newsize nd hre
      have hkeep := A.realloc_keeps old newsize nd hre (by omega)
      refine .inr (.inr ⟨nd, newsize, hroom, hge, hle, ?_, hnl, ?_⟩)
      · simp only [tntSbufObjectResize, if_pos hroom, hold, bind, Option.bind_some, pure, ← hnew,
          hre]
      · rw [← hbytes, ← hkeep, List.take_take, Nat.min_eq_left (by omega)]
  · refine .inr (.inl ⟨by omega, ?_⟩)
    simp only [tntSbufObjectResize, if_neg hroom]

/-- **`tnt_sbuf_object_resize` makes room and keeps the bytes**, whether it moves the block or not.
How much room is made is of no interest, as long as it is enough. -/
theorem tntSbufObjectResize_spec : Resize.Spec tntSbufObjectResize := by
  refine ⟨?_⟩
  intro A sb n hA hsb hn
  have hsize := hsb.size_le
  rcases tntSbufObjectResize_cases A hsb n with ⟨-, -, old, m, hm, hno⟩ | ⟨hroom, hres⟩ |
    ⟨nd, newsize, -, hge, -, hres, hlen, htake⟩
  · obtain ⟨new, hre⟩ := hA old m hm
    rw [hno] at hre
    exact absurd hre (by simp)
  · exact ⟨sb, hres, hsb, rfl, rfl, rfl, hroom⟩
  · refine ⟨_, hres, ⟨hsb.owned, .inr ⟨nd, rfl, hlen⟩, ?_⟩, htake, rfl, rfl, hge⟩
    show sb.size ≤ newsize
    omega

/-! ## §3 — leaves.

The adders of leaves encode into a small array and make one write, or in the case of strings two
pieces in one vector.  So the effect is the same for all of them, and only the bytes are different. -/

/-- Counting a child keeps the object in order, its bytes and its mode. -/
theorem countChild_wf {o : Obj} (ho : o.WF) : (countChild o).WF := by
  unfold countChild
  split
  · refine ⟨ho.buf, ?_, ho.alloc_ge, ho.size_le⟩
    simpa using ho.stack_length
  · exact ho

@[simp] theorem countChild_bytes (o : Obj) : (countChild o).bytes = o.bytes := by
  unfold countChild
  split <;> rfl

@[simp] theorem countChild_type (o : Obj) : (countChild o).type = o.type := by
  unfold countChild
  split <;> rfl

/-- Counting a child in the array is `bump`.  The array is counted in at the index below the top,
and `bump` is the same in the list of frames. -/
theorem countChild_frames {o : Obj} (ho : o.WF) {fs : List Frame} (hb : bump o.frames = some fs) :
    (countChild o).frames = fs := by
  cases hn : o.stackSize with
  | zero =>
    rw [Obj.frames, hn, openFrames_zero] at hb
    obtain rfl := Option.some.inj hb
    have hz : ¬ o.stackSize > 0 := by omega
    rw [countChild, if_neg hz, Obj.frames, hn, openFrames_zero]
  | succ n =>
    obtain ⟨e, he, hf⟩ := ho.top hn
    rw [hf] at hb
    simp only [bump] at hb
    split at hb
    · next hlt =>
      obtain rfl := Option.some.inj hb
      have hpos : o.stackSize > 0 := by omega
      -- the counter is a `uint32_t`; `bump` asks for room in it
      have hsize : (e.size + 1).toNat = e.size.toNat + 1 := by
        rw [UInt32.toNat_add]
        exact Nat.mod_eq_of_lt hlt
      have hget : (o.stack.modify n fun e => { e with size := e.size + 1 })[n]? =
          some { e with size := e.size + 1 } := by
        rw [List.getElem?_modify_eq, he]; rfl
      rw [countChild, if_pos hpos, Obj.frames]
      simp only [hn, Nat.add_sub_cancel]
      rw [openFrames_succ hget, openFrames_modify]
      simp only [SboStack.frame, hsize]
    · exact absurd hb (by simp)

section Steps

variable {A : ObjAllocator} (hA : A.Succeeds) {o : Obj} (ho : o.WF)

include hA ho

/-- **A write** appends its bytes.  The bytes are copied behind those in use, and a larger block is
made for them if there is need. -/
theorem write_yields {data : Bytes} (hpos : 0 < data.length) :
    Yields (write A o data) o.type ⟨o.bytes ++ data, o.frames⟩ := by
  obtain ⟨sb', hw, hwf, hbytes, -⟩ := tntBufWrite_spec tntSbufObjectResize_spec hA.1 ho.buf hpos
  refine ⟨data.length, { o with s := { o.s with sb := sb', wrcnt := o.s.wrcnt + 1 } }, ?_, by omega,
    ⟨hwf, ho.stack_length, ho.alloc_ge, ho.size_le⟩, rfl, ?_⟩
  · simp only [write, hw, bind, Option.bind_some, pure]
  · show Build.mk sb'.bytes o.frames = _
    rw [hbytes]; rfl

/-- **A vector** appends all of them.  Its pieces are copied one by one, which makes no difference
to what they come to. -/
theorem writev_yields {v : List Bytes} (hpos : 0 < v.flatten.length) :
    Yields (writev A o v) o.type ⟨o.bytes ++ v.flatten, o.frames⟩ := by
  obtain ⟨sb', hw, hwf, hbytes, -⟩ := tntBufWritev_spec tntSbufObjectResize_spec hA.1 ho.buf hpos
  refine ⟨v.flatten.length, { o with s := { o.s with sb := sb', wrcnt := o.s.wrcnt + 1 } }, ?_,
    by omega, ⟨hwf, ho.stack_length, ho.alloc_ge, ho.size_le⟩, rfl, ?_⟩
  · simp only [writev, hw, bind, Option.bind_some, pure]
  · show Build.mk sb'.bytes o.frames = _
    rw [hbytes]; rfl

/-! ## §4 — containers.

Opening is counting the container in the enclosing one, making room on the stack, pushing, writing
the placeholder.  Closing takes the counter from the entry that is popped and writes a header where
the placeholder is, after moving what is behind it if the header is longer. -/

/-- Opening a container with room on the stack: the header of the mode is written and a frame for it
is pushed.  The number of members in it is a placeholder; closing the container writes it again. -/
theorem addContainer_yields {kind : Kind} {simple : UInt32 → Bytes} {sp pk header : Bytes}
    {size : UInt32} {fs : List Frame} (hb : bump o.frames = some fs) (hroom : fs.length < 8)
    (hmode : o.type = .sparse ∧ header = sp ∨ o.type = .packed ∧ header = pk)
    (hpos : 0 < header.length) :
    Yields (addContainer kind simple sp pk A o size) o.type
      ⟨o.bytes ++ header, ⟨o.bytes.length, 0, kind⟩ :: fs⟩ := by
  have hwf := countChild_wf ho
  have hfs := countChild_frames ho hb
  have hss : (countChild o).stackSize = fs.length := by rw [← hwf.frames_length, hfs]
  have hlt : (countChild o).stackSize < (countChild o).stackAlloc := by
    have := hwf.alloc_ge
    omega
  have hltl : (countChild o).stackSize < (countChild o).stack.length := by
    rwa [hwf.stack_length]
  set c := countChild o with hc
  -- the object with the entry pushed, and its header still to be written
  set o₁ : Obj := { c with
    stack := c.stack.set c.stackSize ⟨c.s.sb.size, 0, kind⟩
    stackSize := c.stackSize + 1 } with ho₁
  have hwf₁ : o₁.WF := by
    refine ⟨hwf.buf, ?_, hwf.alloc_ge, hlt⟩
    rw [ho₁, List.length_set]
    exact hwf.stack_length
  have hfr₁ : o₁.frames = ⟨o.bytes.length, 0, kind⟩ :: fs := by
    have hget : (c.stack.set c.stackSize ⟨c.s.sb.size, 0, kind⟩)[c.stackSize]? =
        some ⟨c.s.sb.size, 0, kind⟩ := List.getElem?_set_self hltl
    rw [ho₁, Obj.frames]
    simp only
    rw [openFrames_succ hget, openFrames_set, ← hfs, ← countChild_bytes o, ← hc, hwf.bytes_length]
    rfl
  have hw : Yields (write A o₁ header) o.type ⟨o.bytes ++ header, o₁.frames⟩ := by
    have hw := write_yields hA hwf₁ hpos
    rwa [show o₁.type = o.type from countChild_type o,
      show o₁.bytes = o.bytes from countChild_bytes o] at hw
  have heq : addContainer kind simple sp pk A o size = write A o₁ header := by
    have hct : c.type = o.type := countChild_type o
    unfold addContainer
    simp only [← hc, if_neg (Nat.ne_of_lt hlt), if_pos hltl, show ¬ ((0 : Int) = -1) by decide,
      if_false]
    rcases hmode with ⟨ht, rfl⟩ | ⟨ht, rfl⟩
    · simp only [hct, ht, ho₁]
    · simp only [hct, ht, ho₁]
  rw [heq, ← hfr₁]
  exact hw

end Steps

section Close

variable [Msgpuck]

/-- The headers the code writes are those of the two styles.  In sparse mode a header has five bytes
whatever the number. -/
theorem sparseHeader_eq (e : SboStack) :
    sparseHeader e.type e.size.toNat = e.type.header MsgPack.sparse e.size.toNat := by
  have hlt := e.size.toNat_lt
  cases e.type with
  | array =>
    rw [sparseHeader, mpEncodeArray32, mpStoreU8_eq, mpStoreU32_eq,
      UInt32.toNat_ofNat_of_lt' hlt]
    exact (Form.min_single 0 0xdd (by simpa using hlt)).symm
  | map =>
    have hhalf : e.size.toNat / 2 < 2 ^ 32 := by omega
    rw [sparseHeader, mpEncodeMap32, mpStoreU8_eq, mpStoreU32_eq, UInt32.toNat_ofNat_of_lt' hhalf]
    exact (Form.min_single 0 0xdf (by simpa using hhalf)).symm

/-- The short ones depend on the count, ... -/
theorem packedHeader_eq (e : SboStack) :
    packedHeader e.type e.size.toNat = e.type.header MsgPack.packed e.size.toNat := by
  have hlt := e.size.toNat_lt
  cases e.type with
  | array =>
    rw [packedHeader, mpEncodeArray_eq, UInt32.toNat_ofNat_of_lt' hlt]
    rfl
  | map =>
    have hhalf : e.size.toNat / 2 < 2 ^ 32 := by omega
    rw [packedHeader, mpEncodeMap_eq, UInt32.toNat_ofNat_of_lt' hhalf]
    rfl

/-- ... and so does their length. -/
theorem packedSize_eq (e : SboStack) :
    packedSize e.type e.size.toNat = (packedHeader e.type e.size.toNat).length := by
  cases ht : e.type with
  | array => simp only [packedSize, packedHeader, mpSizeofArray_eq, mpEncodeArray_eq]
  | map => simp only [packedSize, packedHeader, mpSizeofMap_eq, mpEncodeMap_eq]

omit [Msgpuck] in
/-- A form that covers `n` writes at least one byte for it.  A write of no bytes at all would be a
failure. -/
theorem header_length_pos {S : Style} (hS : S.Sound) (k : Kind) {n : Nat} (hn : n < 2 ^ 32) :
    0 < (k.header S n).length := by
  have hcov : ∃ mk, (k.form S).Agrees mk ∧ (k.form S).Covers (k.announced n) := by
    cases k with
    | array => exact ⟨_, hS.array, hS.array_covers n hn⟩
    | map => exact ⟨_, hS.map, hS.map_covers (n / 2) (by omega)⟩
  obtain ⟨mk, hagree, hcovers⟩ := hcov
  obtain ⟨b, l, ds, heq, -, -⟩ := Form.min_spec hagree hcovers
  rw [Kind.header, heq, List.length_cons]
  omega

omit [Msgpuck] in
/-- Widening a placeholder: whatever header of `sz` bytes is stored afterwards, the bytes are those
before with the placeholder byte replaced by it. -/
theorem widen_spec {A : ObjAllocator} (hA : A.Succeeds) {sb : StreamBuf} (hsb : sb.WF) (offset : Nat)
    (hoff : offset + 1 ≤ sb.size) {header : Bytes} (hpos : 0 < header.length) :
    ∃ sb' data, widen A sb offset header.length = some (true, sb') ∧
      sb'.data.store offset header = some data ∧
      let sb'' := { sb' with data := data, size := sb'.size + header.length - 1 }
      sb''.WF ∧ sb''.bytes = sb.bytes.take offset ++ (header ++ sb.bytes.drop (offset + 1)) := by
  by_cases hsz : header.length > 1
  · obtain ⟨sb₁, hres, hwf, hbytes, hsize, -, hroom⟩ :=
      tntSbufObjectResize_spec.ok hA.1 hsb (n := header.length - 1) (by omega)
    obtain ⟨mem, hd, hlen⟩ : ∃ mem, sb₁.data = .live mem ∧ mem.length = sb₁.alloc := by
      rcases hwf.block with ⟨-, ha⟩ | hlive
      · omega
      · exact hlive
    -- the bytes behind the placeholder, as `memmove` reads them
    set tail := (mem.drop (offset + 1)).take (sb₁.size - offset - 1) with htail
    have htl : tail.length = sb₁.size - offset - 1 := by
      rw [htail, List.length_take, List.length_drop]
      omega
    have htail' : tail = sb.bytes.drop (offset + 1) := by
      rw [← hbytes, StreamBuf.bytes, hd, List.drop_take, htail, Nat.sub_sub]
    have hfit : offset + (header.length + tail.length) ≤ mem.length := by omega
    refine ⟨{ sb₁ with data := .live (overwrite mem (offset + header.length) tail) },
      .live (overwrite mem offset (header ++ tail)), ?_, ?_, ⟨hwf.owned, .inr ⟨_, rfl, ?_⟩, ?_⟩, ?_⟩
    · have hmove : sb₁.data.move (offset + header.length) (offset + 1) (sb₁.size - offset - 1) =
          some (.live (overwrite mem (offset + header.length) tail)) := by
        rw [hd]
        simp only [Block.move, Block.store, ← htail]
        rw [if_pos (by omega), if_pos (by omega)]
      simp only [widen, if_pos hsz, hres, bind, Option.bind_some, pure, Bool.not_true,
        Bool.false_eq_true, if_false, if_neg (show ¬ sb₁.size < offset + 1 by omega), hmove]
    · have hin : offset + header.length ≤ (overwrite mem (offset + header.length) tail).length := by
        rw [overwrite_length (by omega)]
        omega
      simp only [Block.store, if_pos hin]
      rw [overwrite_before hfit]
    · show (overwrite mem offset (header ++ tail)).length = sb₁.alloc
      rw [overwrite_length (by rw [List.length_append]; exact hfit), hlen]
    · show sb₁.size + header.length - 1 ≤ sb₁.alloc
      omega
    · show (overwrite mem offset (header ++ tail)).take (sb₁.size + header.length - 1) = _
      have hn : sb₁.size + header.length - 1 = offset + (header ++ tail).length := by
        rw [List.length_append]
        omega
      have hpre : mem.take offset = sb.bytes.take offset := by
        rw [← hbytes, StreamBuf.bytes, hd, List.take_take, Nat.min_eq_left (by omega)]
      rw [hn, take_overwrite (by rw [List.length_append]; exact hfit), hpre, htail']
  · -- the shortest header fits the placeholder
    have hone : header.length = 1 := by omega
    obtain ⟨data, hstore, hwf, hbytes⟩ := hsb.store_inside offset hpos (by omega)
    refine ⟨sb, data, ?_, hstore, ?_⟩
    · simp only [widen, if_neg hsz]
    · simp only [hone, Nat.add_sub_cancel]
      refine ⟨hwf, ?_⟩
      rw [hbytes, overwrite, hone]

/-- Writing the header of a popped entry is `Frame.patch`.  In sparse mode the five bytes are
written over, and in packed mode the bytes behind the placeholder are moved first. -/
theorem writeHeader_yields {A : ObjAllocator} (hA : A.Succeeds) {o : Obj} (ho : o.WF) {S : Style}
    (hmode : o.type.style = some S) {e : SboStack}
    (hin : e.offset + (e.type.placeholder S).length ≤ o.s.sb.size) :
    Yields (writeHeader A o e) o.type ⟨e.frame.patch S o.bytes, o.frames⟩ := by
  cases ht : o.type with
  | simple => rw [ht] at hmode; exact absurd hmode (by simp [SboType.style])
  | sparse =>
    rw [ht] at hmode
    obtain rfl := Option.some.inj hmode
    -- the sparse header is as wide as its place
    have hlen : (e.type.header MsgPack.sparse e.size.toNat).length =
        (e.type.placeholder MsgPack.sparse).length := by
      rw [← sparseHeader_eq]
      cases e.type <;> simp [sparseHeader, mpEncodeArray32, mpEncodeMap32] <;> rfl
    obtain ⟨data, hstore, hwf, hbytes⟩ := ho.buf.store_inside e.offset
      (header_length_pos sparse_sound e.type e.size.toNat_lt) (by rw [hlen]; exact hin)
    refine ⟨0, { o with s := { o.s with sb := { o.s.sb with data := data } } }, ?_, by decide,
      ⟨hwf, ho.stack_length, ho.alloc_ge, ho.size_le⟩, ht, ?_⟩
    · simp only [writeHeader, ht, sparseHeader_eq, hstore, bind, Option.bind_some, pure]
    · show Build.mk (StreamBuf.bytes { o.s.sb with data := data }) o.frames = _
      rw [hbytes, overwrite, Frame.patch, hlen]
      rfl
  | packed =>
    rw [ht] at hmode
    obtain rfl := Option.some.inj hmode
    -- the place of a packed header is one byte; `widen` makes room for the rest
    have hone : (e.type.placeholder MsgPack.packed).length = 1 := by cases e.type <;> rfl
    obtain ⟨sb', data, hw, hstore, hwf, hbytes⟩ := widen_spec hA ho.buf e.offset
      (by rw [← hone]; exact hin) (header_length_pos packed_sound e.type e.size.toNat_lt)
    set header := e.type.header MsgPack.packed e.size.toNat with hh
    set sb'' : StreamBuf := { sb' with data := data, size := sb'.size + header.length - 1 } with hsb
    refine ⟨0, { o with s := { o.s with sb := sb'' } }, ?_, by decide,
      ⟨hwf, ho.stack_length, ho.alloc_ge, ho.size_le⟩, ht, ?_⟩
    · simp only [writeHeader, ht, packedSize_eq, packedHeader_eq, ← hh, hw, hstore, bind,
        Option.bind_some, pure, Bool.not_true, Bool.false_eq_true, if_false, hsb]
    · show Build.mk sb''.bytes o.frames = _
      rw [hbytes, ← hone]
      rfl

/-- **Closing the innermost container** is the ideal builder's closing step.  In the packed mode the
header is written where the placeholder was, and what follows has been moved behind it; in the
sparse mode it is as long as the placeholder; in the simple mode nothing is written. -/
theorem tntObjectContainerClose_yields {A : ObjAllocator} (hA : A.Succeeds) {o : Obj} (ho : o.WF)
    {S : Style} (hmode : o.type.style = some S) {f : Frame} {fs : List Frame}
    (hframes : o.frames = f :: fs) (hodd : ¬ (f.kind = .map ∧ f.count % 2 = 1))
    (hin : f.offset + (f.kind.placeholder S).length ≤ o.bytes.length) :
    Yields (tntObjectContainerClose A o) o.type ⟨f.patch S o.bytes, fs⟩ := by
  obtain ⟨n, hn⟩ : ∃ n, o.stackSize = n + 1 := by
    refine ⟨o.stackSize - 1, ?_⟩
    have := ho.frames_length
    rw [hframes, List.length_cons] at this
    omega
  obtain ⟨e, he, htop⟩ := ho.top hn
  rw [htop] at hframes
  obtain ⟨rfl, rfl⟩ := List.cons.inj hframes
  rw [ho.bytes_length] at hin
  have hpop : Obj.WF { o with stackSize := n } := by
    refine ⟨ho.buf, ho.stack_length, ho.alloc_ge, ?_⟩
    have := ho.size_le
    show n ≤ o.stackAlloc
    omega
  have hclose : tntObjectContainerClose A o = writeHeader A { o with stackSize := n } e := by
    have hne : ¬ o.stackSize = 0 := by omega
    have hodd' : ¬ (e.type = .map ∧ e.size.toNat % 2 = 1) := hodd
    unfold tntObjectContainerClose
    rw [if_neg hne]
    simp only [hn, Nat.add_sub_cancel, he, bind, Option.bind_some, if_neg hodd']
  rw [hclose]
  exact writeHeader_yields hA hpop hmode hin

end Close

/-! ## §5 — one call is one step.

The API has an adder for every kind of value, and the ideal builder has three steps.
`Call.Performs` says which step a call stands for, through the value that a leaf adds and the kind of
container that a call opens. -/

section Calls

variable [Msgpuck]

/-- The value a call adds, if it adds a leaf.  A C string ends at its first zero byte, and what is
behind that is not written. -/
def Call.leafValue : Call → Option Value
  | .addNil => some .nil
  | .addUint value => some (.uint value.toNat)
  | .addInt value =>
    some (if value.toInt < 0 then .int value.toInt else .uint value.toUInt64.toNat)
  | .addStr str => some (.str str.bytes)
  | .addStrz strz => some (.str (strzPrefix strz).bytes)
  | .addBin bin => some (.bin bin.bytes)
  | .addBool value => some (.bool (value != 0))
  | .addFloat bits => some (.float bits.toNat)
  | .addDouble bits => some (.double bits.toNat)
  | _ => none

/-- What a call does to the ideal builder. -/
inductive Call.Performs : Call → BuildOp → Prop
  | leaf {c v} (h : c.leafValue = some v) : Performs c (.leaf (encode v))
  | array {size} : Performs (.addArray size) (.opening .array)
  | map {size} : Performs (.addMap size) (.opening .map)
  | close : Performs .containerClose .closing

omit [Msgpuck] in
/-- Leaves are leaves, and their numbers and lengths are machine integers.  So every leaf has an
encoding. -/
theorem Call.leafValue_fits {c : Call} {v : Value} (h : c.leafValue = some v) :
    v.Fits ∧ depth v = 0 := by
  cases c with
  | addNil => obtain rfl := Option.some.inj h; exact ⟨trivial, rfl⟩
  | addUint value => obtain rfl := Option.some.inj h; exact ⟨value.toNat_lt, rfl⟩
  | addInt value =>
    obtain rfl := Option.some.inj h
    by_cases hneg : value.toInt < 0
    · rw [if_pos hneg]
      exact ⟨⟨value.le_toInt, hneg⟩, rfl⟩
    · rw [if_neg hneg]
      exact ⟨value.toUInt64.toNat_lt, rfl⟩
  | addStr str => obtain rfl := Option.some.inj h; exact ⟨str.short, rfl⟩
  | addStrz strz => obtain rfl := Option.some.inj h; exact ⟨(strzPrefix strz).short, rfl⟩
  | addBin bin => obtain rfl := Option.some.inj h; exact ⟨bin.short, rfl⟩
  | addBool value => obtain rfl := Option.some.inj h; exact ⟨trivial, rfl⟩
  | addFloat bits => obtain rfl := Option.some.inj h; exact ⟨bits.toNat_lt, rfl⟩
  | addDouble bits => obtain rfl := Option.some.inj h; exact ⟨bits.toNat_lt, rfl⟩
  | addArray _ => exact absurd h (by simp [Call.leafValue])
  | addMap _ => exact absurd h (by simp [Call.leafValue])
  | containerClose => exact absurd h (by simp [Call.leafValue])
  | setType _ => exact absurd h (by simp [Call.leafValue])
  | reset => exact absurd h (by simp [Call.leafValue])

/-- A string is written as its header and its bytes.  It goes out as a vector of two. -/
theorem tntObjectAddStr_eq (A : ObjAllocator) (o : Obj) (str : CStr) :
    ∃ iov, tntObjectAddStr A o str = writev A (countChild o) iov ∧
      iov.flatten = encode (.str str.bytes) := by
  refine ⟨_, rfl, ?_⟩
  have hlen := str.short
  simp only [mpEncodeStrl_eq, UInt32.toNat_ofNat_of_lt' hlen, List.flatten_cons, List.flatten_nil,
    List.append_nil]
  rfl

/-- A leaf call counts a child and hands the encoding of its value to `write` or `writev`.  By cases
on the adder.  From here on there is one lemma about leaves and not one for each. -/
theorem Call.exec_leaf {c : Call} {v : Value} (h : c.leafValue = some v) (A : ObjAllocator)
    (o : Obj) : c.exec A o = write A (countChild o) (encode v) ∨
      ∃ iov, c.exec A o = writev A (countChild o) iov ∧ iov.flatten = encode v := by
  cases c with
  | addNil =>
    obtain rfl := Option.some.inj h
    refine .inl ?_
    rw [Call.exec, tntObjectAddNil, mpEncodeNil_eq]; rfl
  | addUint value =>
    obtain rfl := Option.some.inj h
    refine .inl ?_
    rw [Call.exec, tntObjectAddUint, mpEncodeUint_eq]; rfl
  | addInt value =>
    obtain rfl := Option.some.inj h
    refine .inl ?_
    rw [Call.exec, tntObjectAddInt]
    -- a number that is not negative is written as an unsigned one
    split
    · next hneg => rw [mpEncodeInt_eq _ hneg]; rfl
    · rw [mpEncodeUint_eq]; rfl
  | addStr str => obtain rfl := Option.some.inj h; exact .inr (tntObjectAddStr_eq A o str)
  | addStrz strz => obtain rfl := Option.some.inj h; exact .inr (tntObjectAddStr_eq A o _)
  | addBin bin =>
    obtain rfl := Option.some.inj h
    refine .inr ⟨_, rfl, ?_⟩
    simp only [mpEncodeBinl_eq, UInt32.toNat_ofNat_of_lt' bin.short, List.flatten_cons,
      List.flatten_nil, List.append_nil]
    rfl
  | addBool value =>
    obtain rfl := Option.some.inj h
    refine .inl ?_
    rw [Call.exec, tntObjectAddBool, mpEncodeBool_eq]; rfl
  | addFloat bits =>
    obtain rfl := Option.some.inj h
    refine .inl ?_
    rw [Call.exec, tntObjectAddFloat, mpEncodeFloat_eq]; rfl
  | addDouble bits =>
    obtain rfl := Option.some.inj h
    refine .inl ?_
    rw [Call.exec, tntObjectAddDouble, mpEncodeDouble_eq]; rfl
  | addArray _ => exact absurd h (by simp [Call.leafValue])
  | addMap _ => exact absurd h (by simp [Call.leafValue])
  | containerClose => exact absurd h (by simp [Call.leafValue])
  | setType _ => exact absurd h (by simp [Call.leafValue])
  | reset => exact absurd h (by simp [Call.leafValue])

variable {A : ObjAllocator} (hA : A.Succeeds) {o : Obj} (ho : o.WF)

include hA ho

/-- **A leaf**, by whichever adder.  The adders differ in what they encode and not in what they do
with it. -/
theorem Call.exec_leaf_yields {c : Call} {v : Value} (h : c.leafValue = some v) :
    Yields (c.exec A o) o.type ⟨o.bytes ++ encode v, (countChild o).frames⟩ := by
  have hpos : 0 < (encode v).length :=
    (encodes_encodeWith packed_sound v (Call.leafValue_fits h).1).length_pos
  rcases Call.exec_leaf h A o with heq | ⟨iov, heq, hiov⟩
  · have hw := write_yields hA (countChild_wf ho) hpos
    rwa [countChild_bytes, countChild_type, ← heq] at hw
  · have hw := writev_yields hA (countChild_wf ho) (v := iov) (by rw [hiov]; exact hpos)
    rwa [countChild_bytes, countChild_type, ← heq, hiov] at hw

/-- **One call is one step of the ideal builder.**  The hypothesis is that the ideal builder has the
step: no container is closed where none is open, and no map with an odd number of items. -/
theorem Call.exec_yields {S : Style} (hmode : o.type.style = some S) {c : Call} {op : BuildOp}
    (hc : c.Performs op) {b : Build} (hstep : o.build.step S 8 op = some b) :
    Yields (c.exec A o) o.type b := by
  -- the bytes a mode opens a container with
  have hopen : ∀ k : Kind, ∀ sp pk : Bytes, sp = k.placeholder MsgPack.sparse →
      pk = k.placeholder MsgPack.packed →
        o.type = .sparse ∧ k.placeholder S = sp ∨ o.type = .packed ∧ k.placeholder S = pk := by
    rintro k sp pk rfl rfl
    cases ht : o.type with
    | simple => rw [ht] at hmode; exact absurd hmode (by simp [SboType.style])
    | sparse => rw [ht] at hmode; obtain rfl := Option.some.inj hmode; exact .inl ⟨rfl, rfl⟩
    | packed => rw [ht] at hmode; obtain rfl := Option.some.inj hmode; exact .inr ⟨rfl, rfl⟩
  have hpos : ∀ k : Kind, 0 < (k.placeholder S).length := by
    intro k
    have hS : S.Sound := by
      rcases hopen k _ _ rfl rfl with ⟨ht, -⟩ | ⟨ht, -⟩
      · rw [ht] at hmode; obtain rfl := Option.some.inj hmode; exact sparse_sound
      · rw [ht] at hmode; obtain rfl := Option.some.inj hmode; exact packed_sound
    have := header_length_pos hS k (n := 0) (by omega)
    cases k <;> exact this
  cases hc with
  | leaf h =>
    simp only [Build.step, bind, Option.bind_eq_some_iff, pure, Option.some.injEq] at hstep
    obtain ⟨fs, hb, rfl⟩ := hstep
    have hy := Call.exec_leaf_yields hA ho h
    rwa [countChild_frames ho hb] at hy
  | array =>
    simp only [Build.step, bind, Option.bind_eq_some_iff] at hstep
    obtain ⟨fs, hb, hrest⟩ := hstep
    split at hrest
    · next hroom =>
      obtain rfl := Option.some.inj hrest
      apply addContainer_yields hA ho hb hroom _ (hpos _)
      apply hopen .array
      · simp [mpEncodeArray32]; rfl
      · simp; rfl
    · exact absurd hrest (by simp)
  | map =>
    simp only [Build.step, bind, Option.bind_eq_some_iff] at hstep
    obtain ⟨fs, hb, hrest⟩ := hstep
    split at hrest
    · next hroom =>
      obtain rfl := Option.some.inj hrest
      apply addContainer_yields hA ho hb hroom _ (hpos _)
      apply hopen .map
      · simp [mpEncodeMap32]; rfl
      · simp; rfl
    · exact absurd hrest (by simp)
  | close =>
    obtain ⟨f, fs, hframes, hodd, hin, rfl⟩ := Build.step_closing hstep
    exact tntObjectContainerClose_yields hA ho hmode hframes hodd hin

end Calls

/-! ## §6 — objects that calls lead to are in order.

Here calls may fail, with whatever answers the allocator gives, and the object has to be in order
all the same, unless the block was lost: then there is nothing left to be in order. -/

/-- A call that yields leaves an object in order. -/
theorem Yields.wf {r : Option (Int × Obj)} {type : SboType} {b : Build} (h : Yields r type b)
    {rv : Int} {o : Obj} (hr : r = some (rv, o)) : o.WF := by
  obtain ⟨rv', o', heq, -, hwf, -, -⟩ := h
  rw [hr] at heq
  obtain ⟨rfl, rfl⟩ := Prod.mk.inj (Option.some.inj heq)
  exact hwf

/-- A store that stays inside the block keeps the buffer in order.  The block keeps its length. -/
theorem store_wf {sb : StreamBuf} (h : sb.WF) {off : Nat} {src : Bytes} {data : Block}
    (hs : sb.data.store off src = some data) : StreamBuf.WF { sb with data := data } := by
  obtain ⟨mem, hd, hle, rfl⟩ := Block.store_eq_some hs
  rcases h.block with ⟨hn, -⟩ | ⟨mem', hd', hlen⟩
  · rw [hn] at hd; exact absurd hd (by simp)
  · rw [hd'] at hd
    obtain rfl := Block.live.inj hd
    exact ⟨h.owned, .inr ⟨_, rfl, (overwrite_length hle).trans hlen⟩, h.size_le⟩

/-- So do the parts of a call, in all their outcomes: growing the stack, ... -/
theorem tntSbufObjectGrowStack_wf {A : ObjAllocator} {o : Obj} (ho : o.WF) :
    (tntSbufObjectGrowStack A o).2.WF := by
  unfold tntSbufObjectGrowStack
  split
  · exact ho
  · cases hs : A.newStack (2 * o.stackAlloc) with
    | none => exact ho
    | some stack =>
      have hge := ho.alloc_ge
      have hle := ho.size_le
      refine ⟨ho.buf, A.newStack_length _ _ hs, ?_, ?_⟩
      · show 8 ≤ 2 * o.stackAlloc
        omega
      · show o.stackSize ≤ 2 * o.stackAlloc
        omega

/-- Whatever offset it is given, widening fails and releases the block, or is undefined, or leaves
room for the header.  The offset comes from the stack, and the stack may be stale, so nothing is
assumed of it. -/
theorem widen_cases {A : ObjAllocator} {sb sb' : StreamBuf} (hsb : sb.WF) {offset sz : Nat}
    {ok : Bool} (h : widen A sb offset sz = some (ok, sb')) :
    (ok = false ∧ sb' = { sb with data := sb.data.free } ∧ ¬ A.toAllocator.Succeeds) ∨
      (ok = true ∧ sb'.WF ∧ sb'.size + sz - 1 ≤ sb'.alloc) := by
  have hle := hsb.size_le
  unfold widen at h
  split at h
  · next hsz =>
    -- what is left once there is room
    have hmoved : ∀ sb₁ : StreamBuf, sb₁.WF → sb₁.size + (sz - 1) ≤ sb₁.alloc →
        tntSbufObjectResize A.toAllocator sb (sz - 1) = some (true, sb₁) →
          ok = true ∧ sb'.WF ∧ sb'.size + sz - 1 ≤ sb'.alloc := by
      intro sb₁ hwf hroom hres
      simp only [hres, bind, Option.bind_some, Bool.not_true, Bool.false_eq_true, if_false] at h
      split at h
      · exact absurd h (by simp)
      simp only [Option.bind_eq_some_iff] at h
      obtain ⟨data, hmove, h⟩ := h
      obtain ⟨rfl, rfl⟩ := Prod.mk.inj (Option.some.inj h)
      have hstore : ∃ src, sb₁.data.store (offset + sz) src = some data := by
        unfold Block.move at hmove
        split at hmove
        · split at hmove
          · exact ⟨_, hmove⟩
          · exact absurd hmove (by simp)
        · exact absurd hmove (by simp)
      obtain ⟨src, hs⟩ := hstore
      refine ⟨rfl, store_wf hwf hs, ?_⟩
      show sb₁.size + sz - 1 ≤ sb₁.alloc
      omega
    rcases tntSbufObjectResize_cases A.toAllocator hsb (sz - 1) with
      ⟨-, hres, old, m, hm, hno⟩ | ⟨hroom, hres⟩ | ⟨nd, newsize, hlt, hge, -, hres, hlen, -⟩
    · simp only [hres, bind, Option.bind_some, Bool.not_false, if_true, pure, Option.some.injEq,
        Prod.mk.injEq] at h
      refine .inl ⟨h.1.symm, h.2.symm, ?_⟩
      intro hA
      obtain ⟨new, hre⟩ := hA old m hm
      rw [hno] at hre
      exact absurd hre (by simp)
    · exact .inr (hmoved sb hsb hroom hres)
    · have hwf : StreamBuf.WF { sb with data := .live nd, alloc := newsize } := by
        refine ⟨hsb.owned, .inr ⟨nd, rfl, hlen⟩, ?_⟩
        show sb.size ≤ newsize
        omega
      exact .inr (hmoved _ hwf hge hres)
  · obtain ⟨rfl, rfl⟩ := Prod.mk.inj (Option.some.inj h)
    exact .inr ⟨rfl, hsb, by omega⟩

section Reach

variable {A : ObjAllocator} (hA : A.Succeeds) {o : Obj} (ho : o.WF)

include hA ho

/-- ... opening, ... -/
theorem addContainer_wf {kind : Kind} {simple : UInt32 → Bytes} {sp pk : Bytes} {size : UInt32}
    (hsimple : 0 < (simple size).length) (hsp : 0 < sp.length) (hpk : 0 < pk.length) {rv : Int}
    {o' : Obj} (h : addContainer kind simple sp pk A o size = some (rv, o')) : o'.WF := by
  unfold addContainer at h
  have hc := countChild_wf ho
  obtain ⟨g, o₁, hg, ho₁⟩ : ∃ g o₁, (if (countChild o).stackSize = (countChild o).stackAlloc
      then tntSbufObjectGrowStack A (countChild o) else (0, countChild o)) = (g, o₁) ∧ o₁.WF := by
    split
    · exact ⟨_, _, rfl, tntSbufObjectGrowStack_wf hc⟩
    · exact ⟨_, _, rfl, hc⟩
  simp only [hg] at h
  split at h
  · obtain ⟨-, rfl⟩ := Prod.mk.inj (Option.some.inj h)
    exact ho₁
  split at h
  · next hlt =>
    set o₂ : Obj := { o₁ with
      stack := o₁.stack.set o₁.stackSize ⟨o₁.s.sb.size, 0, kind⟩
      stackSize := o₁.stackSize + 1 } with ho₂
    have hwf : o₂.WF := by
      refine ⟨ho₁.buf, ?_, ho₁.alloc_ge, ?_⟩
      · rw [ho₂, List.length_set]
        exact ho₁.stack_length
      · show o₁.stackSize + 1 ≤ o₁.stackAlloc
        rw [← ho₁.stack_length]
        exact hlt
    split at h
    · exact (write_yields hA hwf hsimple).wf h
    · exact (write_yields hA hwf hsp).wf h
    · exact (write_yields hA hwf hpk).wf h
  · exact absurd h (by simp)

omit ho in
/-- Whatever offset it is given, widening succeeds or is undefined, and leaves room for the
header. -/
theorem widen_wf {sb sb' : StreamBuf} (hsb : sb.WF) {offset sz : Nat} {ok : Bool}
    (h : widen A sb offset sz = some (ok, sb')) :
    ok = true ∧ sb'.WF ∧ sb'.size + sz - 1 ≤ sb'.alloc := by
  rcases widen_cases hsb h with ⟨-, -, hno⟩ | hyes
  · exact absurd hA.1 hno
  · exact hyes

variable [Msgpuck]

/-- ... writing a header, ... -/
theorem writeHeader_wf {e : SboStack} {rv : Int} {o' : Obj}
    (h : writeHeader A o e = some (rv, o')) : o'.WF := by
  unfold writeHeader at h
  simp only at h
  split at h
  · obtain ⟨-, rfl⟩ := Prod.mk.inj (Option.some.inj h)
    exact ho
  · simp only [bind, Option.bind_eq_some_iff] at h
    obtain ⟨data, hs, h⟩ := h
    obtain ⟨-, rfl⟩ := Prod.mk.inj (Option.some.inj h)
    exact ⟨store_wf ho.buf hs, ho.stack_length, ho.alloc_ge, ho.size_le⟩
  · simp only [bind, Option.bind_eq_some_iff] at h
    obtain ⟨⟨ok, sb⟩, hw, h⟩ := h
    obtain ⟨rfl, hwf, hroom⟩ := widen_wf hA ho.buf hw
    simp only [Bool.not_true, Bool.false_eq_true, if_false, Option.bind_eq_some_iff] at h
    obtain ⟨data, hs, h⟩ := h
    obtain ⟨-, rfl⟩ := Prod.mk.inj (Option.some.inj h)
    have hst := store_wf hwf hs
    exact ⟨⟨hst.owned, hst.block, hroom⟩, ho.stack_length, ho.alloc_ge, ho.size_le⟩

/-- ... closing, ... -/
theorem tntObjectContainerClose_wf {rv : Int} {o' : Obj}
    (h : tntObjectContainerClose A o = some (rv, o')) : o'.WF := by
  unfold tntObjectContainerClose at h
  split at h
  · obtain ⟨-, rfl⟩ := Prod.mk.inj (Option.some.inj h)
    exact ho
  · simp only [bind, Option.bind_eq_some_iff] at h
    obtain ⟨e, -, h⟩ := h
    split at h
    · obtain ⟨-, rfl⟩ := Prod.mk.inj (Option.some.inj h)
      exact ho
    · have hpop : Obj.WF { o with stackSize := o.stackSize - 1 } :=
        ⟨ho.buf, ho.stack_length, ho.alloc_ge, Nat.le_trans (Nat.sub_le _ _) ho.size_le⟩
      exact writeHeader_wf hA hpop h

/-- Every call keeps the object in order.  With memory; where an allocation fails the block is gone,
and then nothing is said. -/
theorem Call.exec_wf {c : Call} {rv : Int} {o' : Obj} (h : c.exec A o = some (rv, o')) :
    o'.WF := by
  -- a call that adds a plain value is settled by what it appends; the others one by one
  cases hv : c.leafValue with
  | some v => exact (Call.exec_leaf_yields hA ho hv).wf h
  | none =>
    cases c with
    | addArray size =>
      refine addContainer_wf hA ho ?_ ?_ ?_ h
      · rw [mpEncodeArray_eq]
        exact header_length_pos packed_sound .array size.toNat_lt
      · simp [mpEncodeArray32]
      · rw [mpEncodeArray_eq]; decide
    | addMap size =>
      refine addContainer_wf hA ho ?_ ?_ ?_ h
      · rw [mpEncodeMap_eq]
        obtain ⟨b, l, ds, heq, -, -⟩ :=
          Form.min_spec mapForm_agrees (packed_sound.map_covers _ size.toNat_lt)
        rw [heq]; simp
      · simp [mpEncodeMap32]
      · rw [mpEncodeMap_eq]; decide
    | containerClose => exact tntObjectContainerClose_wf hA ho h
    | setType type =>
      rcases tntObjectType_cases (Option.some.inj h) with ⟨-, rfl⟩ | ⟨-, rfl⟩
      · exact ho
      · exact ⟨ho.buf, ho.stack_length, ho.alloc_ge, ho.size_le⟩
    | reset =>
      obtain ⟨-, rfl⟩ := Prod.mk.inj (Option.some.inj h)
      exact ⟨⟨ho.buf.owned, ho.buf.block, Nat.zero_le _⟩, ho.stack_length, ho.alloc_ge,
        Nat.zero_le _⟩
    | _ => exact absurd hv (by simp [Call.leafValue])

end Reach

/-- ... and making a new object. -/
theorem tntObject_wf {stack : List SboStack} (h : stack.length = 8) : (tntObject stack).WF :=
  ⟨tntBuf_wf, h, Nat.le_refl _, Nat.zero_le _⟩

/-- **Every reachable object is in order.**  An induction over the calls that led to it, failing
ones included. -/
theorem Reachable.wf [Msgpuck] {o : Obj} (h : Reachable o) : o.WF := by
  induction h with
  | new hs => exact tntObject_wf hs
  | call hA _ hc ih => exact Call.exec_wf hA ih hc

/-! ## §7 — `tnt_object_verify`. -/

/-- The check behind the look at the type: all of the bytes are one value.  It walks over one value
and says where that ends, and the function compares this with the end of the bytes. -/
theorem mpCheck_cases [Msgpuck] (bytes : Bytes) :
    (mpCheck bytes = none ∧ ¬ ∃ v, Encodes v bytes) ∨
      ∃ k, mpCheck bytes = some k ∧ (¬ k < bytes.length ↔ ∃ v, Encodes v bytes) := by
  cases hcheck : mpCheck bytes with
  | none =>
    refine .inl ⟨rfl, ?_⟩
    rintro ⟨v, henc⟩
    have hfront := mpCheck_front henc []
    rw [List.append_nil, hcheck] at hfront
    exact absurd hfront (by simp)
  | some k =>
    refine .inr ⟨k, rfl, ?_⟩
    obtain ⟨v, cs, rest, heq, henc, rfl⟩ := (mpCheck_iff _ _).mp hcheck
    constructor
    · intro hge
      rw [heq, List.length_append] at hge
      have hrest : rest = [] := List.eq_nil_of_length_eq_zero (by omega)
      rw [heq, hrest, List.append_nil]
      exact ⟨v, henc⟩
    · rintro ⟨v', henc'⟩ hlt
      have hfront := mpCheck_front henc' []
      rw [List.append_nil, hcheck] at hfront
      have := Option.some.inj hfront
      omega

/-- **With bytes to look at, `tnt_object_verify` ends**, and accepts exactly the encodings of one
value, of the type asked for. -/
theorem tntObjectVerify_spec [Msgpuck] {bytes : Bytes} (hne : bytes ≠ []) (type : Option Ty) :
    ∃ rv, tntObjectVerify bytes type = some rv ∧ (rv = 0 ∨ rv = -1) ∧
      (rv = 0 ↔ ∃ v, Encodes v bytes ∧ ∀ t, type = some t → v.ty = t) := by
  -- the type is right, or not asked for
  have hrest : (∀ v, Encodes v bytes → ∀ t, type = some t → v.ty = t) →
      (mpCheck bytes = none → tntObjectVerify bytes type = some (-1)) →
      (∀ k, mpCheck bytes = some k →
        tntObjectVerify bytes type = some (if k < bytes.length then -1 else 0)) →
      ∃ rv, tntObjectVerify bytes type = some rv ∧ (rv = 0 ∨ rv = -1) ∧
        (rv = 0 ↔ ∃ v, Encodes v bytes ∧ ∀ t, type = some t → v.ty = t) := by
    intro hall hnone hsome
    have hdrop : (∃ v, Encodes v bytes ∧ ∀ t, type = some t → v.ty = t) ↔ ∃ v, Encodes v bytes :=
      ⟨fun ⟨v, henc, _⟩ => ⟨v, henc⟩, fun ⟨v, henc⟩ => ⟨v, henc, hall v henc⟩⟩
    rw [hdrop]
    rcases mpCheck_cases bytes with ⟨hcheck, hno⟩ | ⟨k, hcheck, hiff⟩
    · exact ⟨-1, hnone hcheck, .inr rfl, fun h => absurd h (by decide), fun h => absurd h hno⟩
    · refine ⟨if k < bytes.length then -1 else 0, hsome k hcheck, ?_, ?_⟩
      · split <;> simp
      · rw [← hiff]
        split <;> simp [*]
  cases type with
  | none =>
    refine hrest (by simp) ?_ ?_
    · intro hcheck
      simp [tntObjectVerify, hcheck]
    · intro k hcheck
      simp [tntObjectVerify, hcheck]
  | some t =>
    obtain ⟨b, bs, rfl⟩ := List.exists_cons_of_ne_nil hne
    by_cases hty : mpTypeof b = t
    · refine hrest ?_ ?_ ?_
      · intro v henc t' ht'
        rw [← mpTypeof_front henc, hty]
        exact Option.some.inj ht'
      · intro hcheck
        simp [tntObjectVerify, hcheck]
      · intro k hcheck
        simp [tntObjectVerify, hty, hcheck]
    · refine ⟨-1, by simp [tntObjectVerify, hty], .inr rfl, ?_⟩
      constructor
      · intro h
        exact absurd h (by decide)
      · rintro ⟨v, henc, hall⟩
        rw [mpTypeof_front henc] at hty
        exact absurd (hall t rfl) hty

/-- What is accepted is one value of the type.  The type is that of the first byte, and the value is
looked at as a whole. -/
theorem tntObjectVerify_eq_zero_iff [Msgpuck] {bytes : Bytes} {t : Ty} :
    tntObjectVerify bytes (some t) = some 0 ↔ ∃ v, Encodes v bytes ∧ v.ty = t := by
  by_cases hne : bytes = []
  · subst hne
    constructor
    · intro h
      exact absurd h (by simp [tntObjectVerify])
    · rintro ⟨v, hv, -⟩
      exact absurd rfl hv.ne_nil
  · obtain ⟨rv, hrv, -, hiff⟩ := tntObjectVerify_spec hne (some t)
    rw [hrv, Option.some.injEq, hiff]
    simp

/-- The case the requests ask for. -/
theorem tntObjectVerify_array_iff [Msgpuck] {bytes : Bytes} :
    tntObjectVerify bytes (some .array) = some 0 ↔ ∃ xs, Encodes (.array xs) bytes := by
  rw [tntObjectVerify_eq_zero_iff]
  constructor
  · rintro ⟨v, henc, hty⟩
    cases v with
    | array xs => exact ⟨xs, henc⟩
    | _ => exact absurd hty (by simp [Value.ty])
  · rintro ⟨xs, henc⟩
    exact ⟨_, henc, rfl⟩

end TarantoolC.Object
