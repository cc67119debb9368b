/-
# TarantoolC.Object.Nesting — the stack of open containers, and where it is lost.

`tnt_sbuf_object_grow_stack` allocates a larger array, frees the old one and copies nothing.  So the
call that opens a container while the array is full replaces the entries of ALL containers around it
by what the new memory held; the headers written when these are closed go to arbitrary offsets with
arbitrary counts.  An object has room for eight containers until it has grown.

What is left is exact (`tntObject_nesting`): a call that opens a container keeps the enclosing ones
if and only if the array is not full, and in every run that never opens a container on a full array
the object is the ideal nest of containers of `TarantoolC.Object.Nest`, with room for 128.

`Obj.NestsSafely` is about one state, for every allocator and every call that opens a container: if
it succeeds, the entries of the containers around it are what they were, one more child counted.
The equivalence is exact because on a full array some allocator has new memory that differs.
`runCalls_nest` is about whole runs: as long as no call opens a container on a full array, each one
is a step of the nest, with the same answer and the same bytes.
-/
import TarantoolC.Object.Nest
import TarantoolC.Object.Calls
import TarantoolC.Object.Replay

namespace TarantoolC.Object

open MsgPack Msgpuck

/-! ## §1 — entries.

What a new array holds is up to the allocator; an entry that differs from the one it should be can
always be found. -/

/-- An object in order has its stack in order. -/
theorem Obj.WF.stacked {o : Obj} (h : o.WF) : o.Stacked :=
  ⟨h.stack_length, h.size_le, by have := h.alloc_ge; omega⟩

/-- The entries in use are as many as the count says. -/
theorem Obj.Stacked.frames_length {o : Obj} (h : o.Stacked) : o.frames.length = o.stackSize :=
  openFrames_length (by rw [h.length]; exact h.size_le)

/-- The innermost entry of a non-empty stack. -/
theorem Obj.Stacked.frames_top {o : Obj} (h : o.Stacked) (hpos : o.stackSize ≠ 0) :
    ∃ e, o.stack[o.stackSize - 1]? = some e ∧
      o.frames = e.frame :: openFrames o.stack (o.stackSize - 1) := by
  obtain ⟨e, he⟩ := h.top hpos
  refine ⟨e, he, ?_⟩
  rw [Obj.frames, show o.stackSize = o.stackSize - 1 + 1 by omega]
  exact openFrames_succ he

/-- Counting a child in the array, in 32 bits. -/
theorem countChild_recount {o : Obj} (h : o.Stacked) : (countChild o).frames = recount o.frames := by
  by_cases hpos : o.stackSize = 0
  · have hno : ¬ o.stackSize > 0 := by omega
    rw [countChild, if_neg hno, Obj.frames, hpos, openFrames_zero]
    rfl
  · obtain ⟨e, he, hf⟩ := h.frames_top hpos
    have hget : (o.stack.modify (o.stackSize - 1) fun e => { e with size := e.size + 1 })[
        o.stackSize - 1]? = some { e with size := e.size + 1 } := by
      rw [List.getElem?_modify_eq, he]
      rfl
    have htop := openFrames_succ hget
    rw [show o.stackSize - 1 + 1 = o.stackSize by omega, openFrames_modify] at htop
    have hsize : (e.size + 1).toNat = (e.size.toNat + 1) % 2 ^ 32 := UInt32.toNat_add e.size 1
    rw [hf, countChild, if_pos (Nat.pos_of_ne_zero hpos), Obj.frames]
    simp only [htop, recount, SboStack.frame, hsize]

/-- A pushed entry in front of what the array holds. -/
theorem Obj.push_frames {o : Obj} {stack : List SboStack} (h : o.stackSize < stack.length)
    (alloc : Nat) (kind : Kind) : (o.push stack alloc kind).frames =
      ⟨o.s.sb.size, 0, kind⟩ :: openFrames stack o.stackSize := by
  have hget : (stack.set o.stackSize ⟨o.s.sb.size, 0, kind⟩)[o.stackSize]? =
      some ⟨o.s.sb.size, 0, kind⟩ := List.getElem?_set_self h
  show openFrames (stack.set o.stackSize ⟨o.s.sb.size, 0, kind⟩) (o.stackSize + 1) = _
  rw [openFrames_succ hget, openFrames_set]
  rfl

/-! ## §2 — opening a container.

On an array that is not full the entries are what they were, one child counted.  On a full one there
is an allocator with which they are not, unless nothing can succeed there. -/

section Opening

variable [Msgpuck]

/-- What opening a container has to do to the entries: one more on top, one more child in the
innermost of the others, and nothing else. -/
def KeepsEnclosing (o o' : Obj) (kind : Kind) : Prop :=
  o'.frames = ⟨o.s.sb.size, 0, kind⟩ :: recount o.frames

/-- Opening a container does that whenever it succeeds, whatever memory the allocator hands out. -/
def Obj.NestsSafely (o : Obj) : Prop :=
  ∀ A c kind rv o', Call.opens c = some kind → c.exec A o = some (rv, o') → rv ≠ -1 →
    KeepsEnclosing o o' kind

/-- The array a successful call pushes to, and the entries afterwards. -/
theorem Call.exec_opens_frames {A : ObjAllocator} {o o' : Obj} (ho : o.Sane) {c : Call} {kind : Kind}
    (hc : c.opens = some kind) {rv : Int} (h : c.exec A o = some (rv, o')) (hrv : rv ≠ -1) :
    o.s.sb.WF ∧ ∃ stack alloc, Room A (countChild o) stack alloc ∧
      o'.frames = ⟨o.s.sb.size, 0, kind⟩ :: openFrames stack o.stackSize := by
  rcases Call.exec_opens A ho.stacked hc with ⟨hr, -⟩ | ⟨stack, alloc, hroom, hr⟩
  · rw [h] at hr
    exact absurd (Prod.mk.inj (Option.some.inj hr)).1 hrv
  · obtain ⟨hlen, hlt⟩ := hroom.length ho.stacked.countChild
    have hw : Written A ((countChild o).push stack alloc kind) (c.openingBytes o.type)
        (some (rv, o')) := .inl (by rw [← h, hr])
    have hpos := Call.openingBytes_pos hc o.type
    have hs : ((countChild o).push stack alloc kind).s = o.s := countChild_s o
    have hfr := (countChild o).push_frames (by rw [hlen]; exact hlt) alloc kind
    rw [countChild_s, countChild_stackSize] at hfr
    rcases ho.buf with hfix | ⟨hfix, hfreed⟩ | hwf
    · have hr := hw.fixed (by rw [hs, hfix])
      exact absurd (Prod.mk.inj (Option.some.inj hr)).1 hrv
    · exact absurd (hw.dangling (by rw [hs, hfix]) (by rw [hs, hfreed]) hpos) (by simp)
    · refine ⟨hwf, stack, alloc, hroom, ?_⟩
      rcases hw.owned (by rw [hs]; exact hwf) hpos with ⟨hr, -⟩ | ⟨sb', hr, -⟩
      · exact absurd (Prod.mk.inj (Option.some.inj hr)).1 hrv
      · obtain ⟨-, rfl⟩ := Prod.mk.inj (Option.some.inj hr)
        exact hfr

omit [Msgpuck] in
/-- An allocator whose new stack arrays hold entries for a container at `off`. -/
def staleStack (off : Nat) : ObjAllocator where
  toAllocator := Allocator.zeroing
  newStack n := some (List.replicate n ⟨off, 0, .array⟩)
  newStack_length n st h := by
    obtain rfl := Option.some.inj h
    exact List.length_replicate

/-- **When opening a container keeps the enclosing ones.**  On a full array it does not; on a buffer
that cannot be written it never succeeds. -/
theorem Obj.nestsSafely_iff {o : Obj} (ho : o.Sane) (hlimit : o.stackSize < 128) :
    o.NestsSafely ↔
      o.stackSize ≠ o.stackAlloc ∨ o.s.sb.fixed = true ∨ o.s.sb.data = .freed := by
  constructor
  · intro hsafe
    by_contra hbad
    obtain ⟨hfull, hfix, hfreed⟩ : o.stackSize = o.stackAlloc ∧ ¬ o.s.sb.fixed = true ∧
        ¬ o.s.sb.data = .freed := by tauto
    have hwf : o.s.sb.WF := by
      rcases ho.buf with h | ⟨-, h⟩ | h
      · exact absurd h hfix
      · exact absurd h hfreed
      · exact h
    have hpos : o.stackSize ≠ 0 := by
      have := ho.stacked.alloc_pos
      omega
    obtain ⟨e, he, hf⟩ := ho.stacked.frames_top hpos
    -- the new array claims that the parent starts one byte later
    have hexec : ∃ rv o', (Call.addArray 0).exec (staleStack (e.offset + 1)) o = some (rv, o') ∧
        rv ≠ -1 := by
      rcases Call.exec_opens (staleStack (e.offset + 1)) ho.stacked (c := .addArray 0) rfl with
        ⟨-, -, h128 | hno⟩ | ⟨stack, alloc, hroom, hr⟩
      · omega
      · exact absurd hno (by simp [staleStack])
      · have hw : Written (staleStack (e.offset + 1)) ((countChild o).push stack alloc .array)
            ((Call.addArray 0).openingBytes o.type) _ := .inl rfl
        have hwf' : ((countChild o).push stack alloc .array).s.sb.WF := by
          show (countChild o).s.sb.WF
          rw [countChild_s]
          exact hwf
        rcases hw.owned hwf' (Call.openingBytes_pos rfl o.type) with ⟨-, hno, -⟩ | ⟨sb', hr', -⟩
        · exact absurd Allocator.zeroing_succeeds hno
        · exact ⟨_, _, by rw [hr, hr'], by omega⟩
    obtain ⟨rv, o', hexec, hrv⟩ := hexec
    have hkeeps := hsafe _ _ _ _ _ rfl hexec hrv
    obtain ⟨-, stack, alloc, hroom, hfr⟩ := Call.exec_opens_frames ho rfl hexec hrv
    have hstack : stack = List.replicate (2 * o.stackAlloc) ⟨e.offset + 1, 0, .array⟩ := by
      cases hroom with
      | inPlace hlt =>
        rw [countChild_stackSize, countChild_stackAlloc] at hlt
        omega
      | grown _ _ hnew =>
        rw [countChild_stackAlloc] at hnew
        exact (Option.some.inj hnew).symm
    have hget : stack[o.stackSize - 1]? = some ⟨e.offset + 1, 0, .array⟩ := by
      rw [hstack]
      exact List.getElem?_replicate_of_lt (by omega)
    have htop := openFrames_succ hget
    rw [show o.stackSize - 1 + 1 = o.stackSize by omega] at htop
    rw [KeepsEnclosing, hfr, htop, hf] at hkeeps
    simp only [recount, SboStack.frame, List.cons.injEq, Frame.mk.injEq] at hkeeps
    omega
  · intro hok A c kind rv o' hc h hrv
    obtain ⟨hwf, stack, alloc, hroom, hfr⟩ := Call.exec_opens_frames ho hc h hrv
    have hne : o.stackSize ≠ o.stackAlloc := by
      rcases hok with hne | hfix | hfreed
      · exact hne
      · exact absurd hwf.owned (by simp [hfix])
      · rcases hwf.block with ⟨hnull, -⟩ | ⟨mem, hlive, -⟩
        · rw [hfreed] at hnull
          cases hnull
        · rw [hfreed] at hlive
          cases hlive
    cases hroom with
    | inPlace hlt =>
      rw [KeepsEnclosing, hfr, ← countChild_recount ho.stacked, Obj.frames, countChild_stackSize]
    | grown hfull _ _ =>
      rw [countChild_stackSize, countChild_stackAlloc] at hfull
      exact absurd hfull hne

end Opening

/-! ## §3 — runs.

As long as no call opens a container on a full array, the run is that of the nest; counters and
offsets are read off it. -/

section Runs

variable [Msgpuck]

/-- The call does not open a container on a full array. -/
def Roomy (o : Obj) (c : Call) : Prop := c.opens ≠ none → o.stackSize ≠ o.stackAlloc

/-- ... and neither does any call of the run. -/
def RoomyRun : List (ObjAllocator × Call) → Obj → Prop
  | [], _ => True
  | (A, c) :: calls, o => Roomy o c ∧ ∀ rv o', c.exec A o = some (rv, o') → RoomyRun calls o'

/-- What a step of the nest says about a call: it succeeds and shows the next state, or it is
refused and changes nothing. -/
def FollowsNest (S : Style) (o : Obj) (r : Option (Int × Obj)) : Option Nest → Prop
  | some n => Yields r o.type (n.build S)
  | none => r = some (-1, o)

section Step

variable {A : ObjAllocator} {o : Obj} {S : Style} {n : Nest} (hA : A.Succeeds) (ho : o.WF)
  (hsane : o.Sane) (hmode : o.type.style = some S) (hb : o.build = n.build S)

include hA ho hmode hb

/-- Closing a container. -/
theorem containerClose_nest :
    FollowsNest S o (tntObjectContainerClose A o) (n.step S 128 .closing) := by
  have hframes : o.frames = (n.build S).frames := congrArg Build.frames hb
  have hbytes : o.bytes = (n.build S).bytes := congrArg Build.bytes hb
  obtain ⟨base, levels⟩ := n
  cases levels with
  | nil =>
    have hempty : o.stackSize = 0 := by
      rw [← ho.stacked.frames_length, hframes]
      rfl
    show tntObjectContainerClose A o = some (-1, o)
    rw [tntObjectContainerClose, if_pos hempty]
  | cons l ls =>
    by_cases hodd : l.Odd
    · simp only [Nest.step, if_pos hodd]
      show tntObjectContainerClose A o = some (-1, o)
      -- a map with an odd number of children is not closed
      have hpos : o.stackSize ≠ 0 := by
        rw [← ho.stacked.frames_length, hframes]
        simp [Nest.build, levelsFrames]
      obtain ⟨e, he, hf⟩ := ho.stacked.frames_top hpos
      rw [hf] at hframes
      have htop : e.frame = ⟨_, l.count.toNat, l.kind⟩ := (List.cons.inj hframes).1
      have hkind : e.type = l.kind := congrArg Frame.kind htop
      have hcount : e.size.toNat = l.count.toNat := congrArg Frame.count htop
      rcases containerClose_cases A ho.stacked with ⟨-, hr⟩ | ⟨e', hno, -, -⟩
      · exact hr
      · refine absurd (.inr ⟨e, he, ?_, ?_⟩) hno
        · rw [hkind, hodd.1]
        · rw [hcount, hodd.2]
    · simp only [Nest.step, if_neg hodd]
      -- the header of the innermost level goes in front of its children
      have hclose := tntObjectContainerClose_yields hA ho hmode hframes hodd (by
        rw [hbytes]
        simp [Nest.build, levelsBytes])
      rw [hbytes] at hclose
      have hpatch := Nest.patch_top S base l ls
      unfold Nest.topFrame Nest.build at hpatch
      show Yields _ _ ((Nest.append ⟨base, ls⟩ (l.closed S)).build S)
      unfold Nest.build
      rw [← hpatch]
      exact hclose

include hsane

/-- Opening a container on an array that is not full. -/
theorem Call.exec_opens_nest {c : Call} {kind : Kind} (hc : c.opens = some kind)
    (hroom : o.stackSize ≠ o.stackAlloc) :
    FollowsNest S o (c.exec A o) (n.step S 128 (.opening kind)) := by
  have hframes : o.frames = (n.build S).frames := congrArg Build.frames hb
  have hbytes : o.bytes = (n.build S).bytes := congrArg Build.bytes hb
  have hlen : n.levels.length = o.stackSize := by
    rw [← ho.stacked.frames_length, hframes]
    exact (levelsFrames_length S n.base n.levels).symm
  have hlt : n.levels.length < 128 := by
    have hle := hsane.stacked.size_le
    have halloc := hsane.alloc
    simp only [List.mem_cons, List.not_mem_nil, or_false] at halloc
    omega
  simp only [Nest.step, if_pos hlt]
  rcases Call.exec_opens A hsane.stacked hc with ⟨-, hfull, -⟩ | ⟨stack, alloc, hr, hexec⟩
  · exact absurd hfull hroom
  cases hr with
  | grown hfull _ _ =>
    rw [countChild_stackSize, countChild_stackAlloc] at hfull
    exact absurd hfull hroom
  | inPlace hin =>
    have hcwf := countChild_wf ho
    -- the object with the entry pushed, before the opening bytes are written
    set o₁ := (countChild o).push (countChild o).stack (countChild o).stackAlloc kind with ho₁
    have hwf₁ : o₁.WF := by
      refine ⟨hcwf.buf, ?_, hcwf.alloc_ge, hin⟩
      rw [ho₁, Obj.push, List.length_set]
      exact hcwf.stack_length
    have hfr₁ : o₁.frames = ⟨o.bytes.length, 0, kind⟩ :: recount o.frames := by
      rw [ho₁, Obj.push_frames (by rw [hcwf.stack_length]; exact hin), countChild_s,
        ← countChild_recount ho.stacked, ho.bytes_length]
      rfl
    have hw := write_yields hA hwf₁ (Call.openingBytes_pos hc o.type)
    rw [← hexec, show o₁.type = o.type from countChild_type o,
      show o₁.bytes = o.bytes from countChild_bytes o, hfr₁, Call.openingBytes_style hc hmode] at hw
    show Yields _ _ (Nest.build S { n.countUp with levels := ⟨kind, 0, []⟩ :: n.countUp.levels })
    rw [Nest.open_build, Nest.countUp_build, ← hbytes, ← hframes]
    exact hw

/-- **One call is one step of the nest**, as long as it does not open a container on a full array.
The allocator may fail in any way. -/
theorem Call.exec_nest {c : Call} {op : BuildOp} (hc : c.Performs op) (hroom : Roomy o c) :
    FollowsNest S o (c.exec A o) (n.step S 128 op) := by
  cases hc with
  | @leaf _ v hv =>
    have hy := Call.exec_leaf_yields hA ho hv
    show Yields _ _ ((n.countUp.append (encode v)).build S)
    rw [Nest.append_build, Nest.countUp_build]
    rwa [countChild_recount ho.stacked, show o.bytes = (n.build S).bytes from congrArg Build.bytes hb,
      show o.frames = (n.build S).frames from congrArg Build.frames hb] at hy
  | array => exact Call.exec_opens_nest hA ho hsane hmode hb rfl (hroom (by simp [Call.opens]))
  | map => exact Call.exec_opens_nest hA ho hsane hmode hb rfl (hroom (by simp [Call.opens]))
  | close => exact containerClose_nest hA ho hmode hb

end Step

/-- **A run of calls is a run of the nest.**  The same calls are refused in both, and the bytes,
offsets and counters of the object are those of the nest. -/
theorem runCalls_nest {S : Style} {calls : List (ObjAllocator × Call)} {ops : List BuildOp}
    (hp : List.Forall₂ (fun p op => p.2.Performs op) calls ops)
    (hA : ∀ p ∈ calls, p.1.Succeeds) {o : Obj} (ho : o.WF) (hsane : o.Sane)
    (hmode : o.type.style = some S) {n : Nest} (hb : o.build = n.build S)
    (hroom : RoomyRun calls o) :
    ∃ rvs o', runCalls calls o = some (rvs, o') ∧
      rvs.map (fun rv => decide (rv ≠ -1)) = (n.run S 128 ops).1 ∧
      o'.build = (n.run S 128 ops).2.build S := by
  induction hp generalizing o n with
  | nil => exact ⟨[], o, rfl, rfl, hb⟩
  | @cons p op calls ops hop _ ih =>
    obtain ⟨A, c⟩ := p
    have hstep := Call.exec_nest (hA (A, c) (by simp)) ho hsane hmode hb hop hroom.1
    cases hn : n.step S 128 op with
    | none =>
      rw [hn] at hstep
      -- a refused call leaves the object as it is
      have hexec : c.exec A o = some (-1, o) := hstep
      obtain ⟨rvs, o', hrest, hrvs, hb'⟩ :=
        ih (fun q hq => hA q (by simp [hq])) ho hsane hmode hb (hroom.2 _ _ hexec)
      refine ⟨-1 :: rvs, o', ?_, ?_, ?_⟩
      · simp only [runCalls, hexec, bind, Option.bind_some, hrest, pure]
      · simp only [Nest.run, hn, List.map_cons, hrvs]
        rfl
      · simp only [Nest.run, hn, hb']
    | some n' =>
      rw [hn] at hstep
      obtain ⟨rv, o₁, hexec, hrv, hwf₁, htype, hb₁⟩ := hstep
      obtain ⟨rvs, o', hrest, hrvs, hb'⟩ :=
        ih (fun q hq => hA q (by simp [hq])) hwf₁ (Call.exec_sane hsane hexec)
          (by rw [htype]; exact hmode) hb₁ (hroom.2 _ _ hexec)
      refine ⟨rv :: rvs, o', ?_, ?_, ?_⟩
      · simp only [runCalls, hexec, bind, Option.bind_some, hrest, pure]
      · simp only [Nest.run, hn, List.map_cons, hrvs, hrv, ne_eq, not_false_eq_true, decide_true]
      · simp only [Nest.run, hn, hb']

/-- An object before the first value: newly made, or reset after any calls that have left it a
buffer. -/
inductive Blank : Obj → Prop
  | new {stack : List SboStack} (h : stack.length = 8) : Blank (tntObject stack)
  | reset {o : Obj} (h : Reached o) (hbuf : o.s.sb.WF) : Blank (tntObjectReset o)

omit [Msgpuck] in
/-- A sane object whose buffer is in order is in order. -/
theorem Obj.Sane.wf {o : Obj} (h : o.Sane) (hbuf : o.s.sb.WF) : o.WF := by
  refine ⟨hbuf, h.stacked.length, ?_, h.stacked.size_le⟩
  have halloc := h.alloc
  simp only [List.mem_cons, List.not_mem_nil, or_false] at halloc
  omega

/-- A blank object takes a mode and shows nothing. -/
theorem Blank.setType {o : Obj} (h : Blank o) (mode : SboType) :
    ∃ o', tntObjectType o mode = (0, o') ∧ o'.WF ∧ o'.Sane ∧ o'.type = mode ∧
      o'.build = ⟨[], []⟩ := by
  cases h with
  | @new stack hs =>
    have hsane : (tntObject stack).Sane := (Reached.new hs).sane
    have hwf : Obj.WF { tntObject stack with type := mode } :=
      ⟨tntBuf_wf, hs, Nat.le_refl 8, Nat.zero_le 8⟩
    exact ⟨_, rfl, hwf, ⟨⟨hs, Nat.zero_le 8, Nat.succ_pos 7⟩, hsane.alloc, .inr (.inr hwf.buf)⟩, rfl,
      rfl⟩
  | @reset o hr hbuf =>
    have hsane := hr.sane
    have hbuf' : (tntObjectReset o).s.sb.WF := ⟨hbuf.owned, hbuf.block, Nat.zero_le _⟩
    have hsane' : Obj.Sane { tntObjectReset o with type := mode } :=
      ⟨⟨hsane.stacked.length, Nat.zero_le _, hsane.stacked.alloc_pos⟩, hsane.alloc, .inr (.inr hbuf')⟩
    refine ⟨{ tntObjectReset o with type := mode }, rfl, hsane'.wf hbuf', hsane', rfl, ?_⟩
    have hbytes : (tntObjectReset o).s.sb.bytes = [] :=
      List.eq_nil_of_length_eq_zero hbuf'.bytes_length
    show Build.mk (tntObjectReset o).s.sb.bytes [] = _
    rw [hbytes]

/-- **Where nesting is safe.**  In every state that is reached, with any history of allocations, a
call that opens a container keeps the enclosing ones exactly if the stack array is not full (or no
call can succeed); and every run that never opens a container on a full array is a run of the nest
with room for 128 levels: the same calls are refused, and bytes, offsets and counters are those of
the nest, so that every container that is closed gets its own header.  A full stack array is
replaced by one of twice the length, into which the entries of the old one are not copied: the
enclosing containers have lost their counters and offsets.  Up to that point the nest is exact. -/
theorem tntObject_nesting :
    (∀ o : Obj, Reached o → o.stackSize < 128 → (o.NestsSafely ↔
      o.stackSize ≠ o.stackAlloc ∨ o.s.sb.fixed = true ∨ o.s.sb.data = .freed)) ∧
    ∀ (o : Obj) (mode : SboType) (S : Style) (A : ObjAllocator) (calls : List (ObjAllocator × Call))
      (ops : List BuildOp), Blank o → mode.style = some S →
        List.Forall₂ (fun p op => p.2.Performs op) calls ops → (∀ p ∈ calls, p.1.Succeeds) →
          RoomyRun ((A, .setType mode) :: calls) o →
            ∃ rvs o', runCalls ((A, .setType mode) :: calls) o = some (0 :: rvs, o') ∧
              rvs.map (fun rv => decide (rv ≠ -1)) = (Nest.run S 128 ops ⟨[], []⟩).1 ∧
              o'.build = (Nest.run S 128 ops ⟨[], []⟩).2.build S := by
  refine ⟨fun o hr hlt => Obj.nestsSafely_iff hr.sane hlt, ?_⟩
  intro o mode S A calls ops ho hS hp hA hroom
  obtain ⟨o₁, htype, hwf₁, hsane₁, hmode₁, hb₁⟩ := ho.setType mode
  have hset : (Call.setType mode).exec A o = some (0, o₁) := by rw [Call.exec, htype]
  obtain ⟨rvs, o', hrun, hrvs, hb'⟩ := runCalls_nest hp hA hwf₁ hsane₁ (by rw [hmode₁]; exact hS)
    (n := ⟨[], []⟩) hb₁ (hroom.2 _ _ hset)
  refine ⟨rvs, o', ?_, hrvs, hb'⟩
  simp only [runCalls, hset, bind, Option.bind_some, hrun, pure]

end Runs

/-- `[nil]` on a new object: the array is not full when it is opened. -/
theorem tntObject_nesting_one :
    @Obj.NestsSafely Msgpuck.reference (tntObject zeroStack) ∧
      ∃ rvs o', @runCalls Msgpuck.reference ([.setType .packed, .addArray 0, .addNil,
          .containerClose].map fun c => (zeroingObj, c)) (tntObject zeroStack) = some (0 :: rvs, o') ∧
        rvs.map (fun rv => decide (rv ≠ -1)) = [true, true, true] ∧
        o'.build = ⟨[0x91, 0xc0], []⟩ := by
  let _ := Msgpuck.reference
  refine ⟨(tntObject_nesting.1 _ (.new rfl) (by decide)).mpr (.inl (by decide)), ?_⟩
  refine tntObject_nesting.2 (tntObject zeroStack) .packed packed zeroingObj
    ([.addArray 0, .addNil, .containerClose].map fun c => (zeroingObj, c))
    [.opening .array, .leaf (encode .nil), .closing] (.new rfl) rfl ?_ ?_ ?_
  · exact .cons .array (.cons (.leaf rfl) (.cons .close .nil))
  · intro p hp
    obtain ⟨c, -, rfl⟩ := List.mem_map.mp hp
    exact zeroingObj_succeeds
  · refine ⟨fun h => absurd rfl h, ?_⟩
    intro rv o hset
    obtain ⟨-, rfl⟩ := Prod.mk.inj (Option.some.inj hset)
    refine ⟨fun _ => by decide, ?_⟩
    intro rv o _
    exact ⟨fun h => absurd rfl h, fun _ _ _ => ⟨fun h => absurd rfl h, fun _ _ _ => trivial⟩⟩

/-- Eight arrays in each other, open. -/
def eightOpen : Obj where
  s := { sb := { data := .live (List.replicate 8 0x90), size := 8, alloc := 8, rdoff := 0,
                 fixed := false }
         wrcnt := 8
         reqid := 0 }
  stack := (List.range 8).map fun k => ⟨k, if k = 7 then 0 else 1, .array⟩
  stackSize := 8
  stackAlloc := 8
  type := .packed

/-- The calls that lead there. -/
theorem runCalls_eightOpen :
    @runCalls Msgpuck.reference
      ((.setType .packed :: List.replicate 8 (.addArray 0)).map fun c => (zeroingObj, c))
      (tntObject zeroStack) = some (0 :: List.replicate 8 1, eightOpen) := by
  decide +kernel

/-- Eight containers, one in the other. -/
theorem eightOpen_reached : @Reached Msgpuck.reference eightOpen :=
  @Reached.run Msgpuck.reference _ _ _ _ (@Reached.new Msgpuck.reference zeroStack rfl)
    runCalls_eightOpen

/-- Nine arrays in each other, with zeroed memory from the allocator: no call fails, the ninth array
is opened while the eight entries are in use, and every header says that its array is empty. -/
theorem tntObject_nesting_nine :
    let rest := (.addArray 0 :: List.replicate 9 .containerClose).map fun c => (zeroingObj, c)
    @Reached Msgpuck.reference eightOpen ∧ ¬ @Obj.NestsSafely Msgpuck.reference eightOpen ∧
      (@runCalls Msgpuck.reference rest eightOpen).map (fun p => (p.1, p.2.bytes)) =
        some (1 :: List.replicate 9 0, List.replicate 9 0x90) ∧
      (Nest.run packed 128 (List.replicate 9 (.opening .array) ++ List.replicate 9 .closing)
        ⟨[], []⟩).2 = ⟨List.replicate 8 0x91 ++ [0x90], []⟩ := by
  let _ := Msgpuck.reference
  refine ⟨eightOpen_reached, ?_, by decide +kernel, by decide +kernel⟩
  rw [Obj.nestsSafely_iff eightOpen_reached.sane (by decide)]
  decide

end TarantoolC.Object
