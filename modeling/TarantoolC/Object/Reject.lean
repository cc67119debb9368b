/-
# TarantoolC.Object.Reject — which formats are refused.

`tnt_object_vformat` has no check of its own.  A format is refused when a call fails: a closing
bracket where nothing is open, a closing bracket for a map with an odd number of items, an opening
bracket with 128 containers open.  Which bracket closes, `]` or `}`, is not looked at, nor what is
still open at the end of the string.  And where the stack array was replaced, closing a container
that was open then depends on what the new memory held.

`Track` is the nest together with the size of the array and the number of entries that were lost,
and `Track.run` tells how a sequence of calls ends: it goes through, or it is refused, or it goes
astray.  `runFormat_refused_iff`: a format is refused whatever memory the allocator hands out if and
only if its track is.

## How a call follows its track.

`Obj.Tracks` relates an object to a track: the bytes are those of the nest, the array has the size
the track says, and of the entries all are known but the `lost` outermost ones.  One call is one
step (`Call.exec_tracks`), with a lemma for each kind: a leaf, an opening bracket
(`Call.pushed_tracks`, for both arrays it can push to), a closing one.  A closing bracket that would
read a lost entry is where the track goes ASTRAY, and from there on nothing is said of the object.

## And if it goes astray?

Then everything depends on the content of the new array.  `Call.exec_stale` builds an allocator
whose arrays name an offset that is not there, and with it the call runs into undefined behaviour;
so "refused, whatever memory is handed out" is false of such a format, and the equivalence of
`runFormat_refused_iff` holds in both directions.
-/
import TarantoolC.Object.Grammar

namespace TarantoolC.Object

open MsgPack Msgpuck

/-! ## §1 — tracks.

A track is what is left of an object if one looks at the format alone: which containers are open,
how many items each has, how long the stack array is, and how many of its entries were lost when it
was replaced.  It can be computed without running the code, and has no memory in it. -/

/-- Open containers, how many of the outermost ones have lost their entries, and the size of the
stack array. -/
structure Track where
  nest : Nest
  lost : Nat
  alloc : Nat
  deriving Repr, DecidableEq

/-- How a call ends. -/
inductive Verdict where
  | goes | refused | astray
  deriving Repr, DecidableEq

/-- The nest with one more container. -/
def Nest.opened (n : Nest) (k : Kind) : Nest :=
  { n.countUp with levels := ⟨k, 0, []⟩ :: n.countUp.levels }

/-- A call, in the packed mode.  Leaves always go.  An opening bracket goes unless 128 are open, and
where the stack array is full all entries below it are lost.  A closing bracket is refused by an
empty stack, goes astray where its entry was lost, and is refused by a map with an odd count. -/
def Track.step (t : Track) : BuildOp → Verdict × Track
  | .leaf bs => (.goes, { t with nest := t.nest.countUp.append bs })
  | .opening k =>
    if t.nest.levels.length = t.alloc then
      if t.alloc = 128 then (.refused, t)
      -- the new array knows nothing of the containers that are open
      else (.goes, ⟨t.nest.opened k, t.nest.levels.length, 2 * t.alloc⟩)
    else (.goes, { t with nest := t.nest.opened k })
  | .closing =>
    match t.nest.levels with
    | [] => (.refused, t)
    | l :: ls =>
      if ls.length < t.lost then (.astray, t)
      else if l.Odd then (.refused, t)
      else (.goes, { t with nest := Nest.append ⟨t.nest.base, ls⟩ (l.closed packed) })

/-- A sequence of calls, up to the first that does not go through. -/
def Track.run : List BuildOp → Track → Verdict × Track
  | [], t => (.goes, t)
  | op :: ops, t =>
    match t.step op with
    | (.goes, t) => run ops t
    | r => r

/-- A call that does not go through leaves the track where it was.  There is no more to a run behind
it. -/
theorem Track.step_stops {t t' : Track} {op : BuildOp} {v : Verdict} (h : t.step op = (v, t'))
    (hv : v ≠ .goes) : t' = t := by
  have hstop : (t.step op).1 ≠ .goes := by rw [h]; exact hv
  have hsame : (t.step op).2 = t := by
    revert hstop
    unfold Track.step
    split
    · simp
    · split_ifs <;> simp
    · split
      · simp
      · split_ifs <;> simp
  rw [h] at hsame
  exact hsame

/-- Only a closing bracket goes astray.  It is the only call that reads an entry of the stack and
acts on it. -/
theorem Track.step_astray {t t' : Track} {op : BuildOp} (h : t.step op = (.astray, t')) :
    op = .closing := by
  cases op with
  | leaf bs => simp [Track.step] at h
  | opening k =>
    simp only [Track.step] at h
    split_ifs at h <;> simp at h
  | closing => rfl

/-- The object is on the track: its bytes are those of the nest, and so are its innermost entries,
down to the lost ones.  What the lost entries hold is not said: that is up to the memory the new
array came with. -/
structure Obj.Tracks (o : Obj) (t : Track) : Prop where
  sane : o.Sane
  buf : o.s.sb.WF
  mode : o.type = .packed
  bytes : o.bytes = (t.nest.build packed).bytes
  size : o.stackSize = t.nest.levels.length
  alloc : o.stackAlloc = t.alloc
  lost_le : t.lost ≤ o.stackSize
  known : o.frames.take (o.stackSize - t.lost) =
    (t.nest.build packed).frames.take (o.stackSize - t.lost)

/-- Counting a child is counting it in the innermost entry, which is known if any is.  Of a lost
entry nothing is known, and counting a child in it does not change that. -/
theorem recount_take (fs : List Frame) (k : Nat) : (recount fs).take k = recount (fs.take k) := by
  cases fs with
  | nil => simp [recount]
  | cons f fs =>
    cases k with
    | zero => rfl
    | succ k => rfl

/-! ## §2 — one call. -/

section Step

variable [Msgpuck] {A : ObjAllocator} {o : Obj} {t : Track}

/-- The allocator has what the call needs: the bytes fit or there is memory for more, and for a
container that finds the array full there is a larger one. -/
structure Serves (A : ObjAllocator) (o : Obj) (t : Track) (op : BuildOp) : Prop where
  room : A.toAllocator.Succeeds ∨ ((t.step op).2.nest.build packed).bytes.length ≤ o.s.sb.alloc
  stack : ∀ kind, op = .opening kind → o.stackSize = o.stackAlloc → o.stackAlloc ≠ 128 →
    ∃ st, A.newStack (2 * o.stackAlloc) = some st

omit [Msgpuck] in
/-- An allocator that has memory has what any call needs. -/
theorem ObjAllocator.Succeeds.serves (hA : A.Succeeds) (o : Obj) (t : Track) (op : BuildOp) :
    Serves A o t op :=
  ⟨.inl hA.1, fun _ _ _ _ => hA.2 _⟩

omit [Msgpuck] in
/-- A write that finds room, or gets it, appends.  The first case is that of the results about any
memory, the second that of an object that has enough. -/
theorem Written.served {bs : Bytes} {r : Option (Int × Obj)} (h : Written A o bs r)
    (hA : A.toAllocator.Succeeds ∨ o.s.sb.size + bs.length ≤ o.s.sb.alloc) (hwf : o.s.sb.WF)
    (hpos : 0 < bs.length) :
    ∃ sb', r = some ((bs.length : Int), o.wrote sb') ∧ Appends o.s.sb bs sb' := by
  rcases h.owned hwf hpos with ⟨-, hno, hlt⟩ | hyes
  · rcases hA with hA | hroom
    · exact absurd hA hno
    · omega
  · exact hyes

/-- The block is never much larger than what is in it. -/
def Obj.Tight (o : Obj) (bound : Nat) : Prop := o.s.sb.alloc ≤ max bound (2 * o.s.sb.size)

/-- As long as the block need not grow it stays, and so does what is behind the bytes in use. -/
structure Stays (sb sb' : StreamBuf) : Prop where
  size_le : sb.size ≤ sb'.size
  block : sb'.size ≤ sb.alloc → sb'.alloc = sb.alloc ∧
    ∀ mem, sb.data = .live mem →
      ∃ mem', sb'.data = .live mem' ∧ mem'.drop sb'.size = mem.drop sb'.size

/-- What a call on the track does: the next state of the track, or a refusal that leaves the buffer
alone. -/
def Follows (o : Obj) (r : Option (Int × Obj)) : Verdict × Track → Prop
  | (.goes, t) => ∃ rv o', r = some (rv, o') ∧ 0 ≤ rv ∧ o'.Tracks t ∧
      (∀ bound, o.Tight bound → o'.Tight bound) ∧ Stays o.s.sb o'.s.sb
  | (.refused, _) => ∃ o', r = some (-1, o') ∧ o'.s = o.s
  | (.astray, _) => True

omit [Msgpuck] in
/-- Blocks grow by doubling, so they stay in proportion.  This is what bounds the block of an object
by the bytes that were written, which the offsets of a stale entry are compared with. -/
theorem Appends.tight {bs : Bytes} {sb' : StreamBuf} (h : Appends o.s.sb bs sb')
    (hwf : o.s.sb.WF) {bound : Nat} (ht : o.Tight bound) : (o.wrote sb').Tight bound := by
  have hsize := h.size hwf
  have ht : o.s.sb.alloc ≤ max bound (2 * o.s.sb.size) := ht
  show sb'.alloc ≤ max bound (2 * sb'.size)
  rcases h.block with ⟨-, halloc, -⟩ | ⟨-, halloc⟩
  · omega
  · omega

omit [Msgpuck] in
/-- A block that is large enough is not replaced.  So the bytes behind those in use are the old ones
still. -/
theorem Appends.stays {sb sb' : StreamBuf} {bs : Bytes} (h : Appends sb bs sb') (hwf : sb.WF) :
    Stays sb sb' := by
  have hsize := h.size hwf
  refine ⟨by omega, ?_⟩
  intro hle
  rcases h.block with ⟨-, halloc, hstore⟩ | ⟨hlt, -⟩
  · refine ⟨halloc, ?_⟩
    intro mem hmem
    obtain ⟨mem₁, hlive, hin, hdata⟩ := Block.store_eq_some hstore
    rw [hmem] at hlive
    obtain rfl := Block.live.inj hlive
    refine ⟨_, hdata, ?_⟩
    rw [hsize]
    exact drop_overwrite hin (Nat.le_refl _)
  · omega

omit [Msgpuck] in
/-- The bytes on the track. -/
theorem Obj.Tracks.size_eq (ho : o.Tracks t) :
    o.s.sb.size = (t.nest.build packed).bytes.length := by
  rw [← ho.bytes]
  exact ho.buf.bytes_length.symm

/-- A leaf.  It asks nothing of the stack but to count a child, which a lost entry takes as well. -/
theorem Call.leaf_tracks (ho : o.Tracks t) {c : Call} {v : Value} (hv : c.leafValue = some v)
    (hA : Serves A o t (.leaf (encode v))) :
    Follows o (c.exec A o) (t.step (.leaf (encode v))) := by
  obtain ⟨hw, hpos⟩ := Call.exec_written hv A o
  have hcwf : (countChild o).s.sb.WF := by rw [countChild_s]; exact ho.buf
  have hroom : A.toAllocator.Succeeds ∨
      (countChild o).s.sb.size + (encode v).length ≤ (countChild o).s.sb.alloc := by
    have hroom := hA.room
    rw [Track.step, Nest.append_build, Nest.countUp_build] at hroom
    rw [countChild_s, ho.size_eq, ← List.length_append]
    exact hroom
  -- the memory serves this call: it needs no more, or there is more
  obtain ⟨sb', hr, happ⟩ := hw.served hroom hcwf hpos
  have hframes : ((countChild o).wrote sb').frames = recount o.frames :=
    countChild_recount ho.sane.stacked
  have hsize : ((countChild o).wrote sb').stackSize = o.stackSize := countChild_stackSize o
  refine ⟨_, _, hr, by omega, ⟨?_, happ.wf, ?_, ?_, ?_, ?_, ?_, ?_⟩, ?_, ?_⟩
  · rw [hr] at hw
    exact hw.sane ho.sane.countChild hpos
  · exact (countChild_type o).trans ho.mode
  · show sb'.bytes = _
    rw [happ.bytes, countChild_s, Nest.append_build, Nest.countUp_build, ← ho.bytes]
    rfl
  · show ((countChild o).wrote sb').stackSize = _
    rw [hsize, Nest.append_length, Nest.countUp_length, ho.size]
  · exact (countChild_stackAlloc o).trans ho.alloc
  · rw [hsize]
    exact ho.lost_le
  · rw [hsize, hframes, Nest.append_build, Nest.countUp_build, recount_take, recount_take]
    exact congrArg recount ho.known
  · intro bound ht
    refine happ.tight hcwf ?_
    show (countChild o).s.sb.alloc ≤ max bound (2 * (countChild o).s.sb.size)
    rw [countChild_s]
    exact ht
  · rw [← countChild_s o]
    exact happ.stays hcwf

omit [Msgpuck] in
/-- What the nest says of a container that has just been opened. -/
theorem Obj.Tracks.opened_build (ho : o.Tracks t) (kind : Kind) :
    (t.nest.opened kind).build packed = ⟨o.bytes ++ kind.placeholder packed,
      ⟨o.bytes.length, 0, kind⟩ :: recount (t.nest.build packed).frames⟩ := by
  rw [Nest.opened, Nest.open_build, Nest.countUp_build, ← ho.bytes]

omit [Msgpuck] in
/-- The entries of the object then: a new one, in front of what the array pushed to has.  If the
array was replaced, what follows is whatever the new memory has. -/
theorem Obj.Tracks.pushed_frames (ho : o.Tracks t) {stack : List SboStack} {alloc : Nat}
    (hroom : Room A (countChild o) stack alloc) (kind : Kind) :
    ((countChild o).push stack alloc kind).frames =
      ⟨o.bytes.length, 0, kind⟩ :: openFrames stack o.stackSize := by
  obtain ⟨hlen, hlt⟩ := hroom.length ho.sane.stacked.countChild
  have hfr := (countChild o).push_frames (by rw [hlen]; exact hlt) alloc kind
  rw [countChild_s, countChild_stackSize, ← ho.buf.bytes_length] at hfr
  exact hfr

/-- **An opening bracket that goes through**: the call pushes to the array `stack`, whose entries
are known from the top down to the `lost` ones.  The array is the old one or, if that was full, a
new one; of the latter only the entry that is pushed is known. -/
theorem Call.pushed_tracks (ho : o.Tracks t) {c : Call} {kind : Kind} (hk : c.opens = some kind)
    (hA : Serves A o t (.opening kind)) {stack : List SboStack} {alloc lost : Nat}
    (hroom : Room A (countChild o) stack alloc) (hlost : lost ≤ o.stackSize)
    (hknown : (openFrames stack o.stackSize).take (o.stackSize - lost) =
      (recount (t.nest.build packed).frames).take (o.stackSize - lost))
    (hexec : c.exec A o =
      write A ((countChild o).push stack alloc kind) (c.openingBytes o.type))
    (hstep : t.step (.opening kind) = (.goes, ⟨t.nest.opened kind, lost, alloc⟩)) :
    Follows o (c.exec A o) (t.step (.opening kind)) := by
  have hpos := Call.openingBytes_pos hk o.type
  have hstyle : c.openingBytes o.type = kind.placeholder packed :=
    Call.openingBytes_style hk (by rw [ho.mode]; rfl)
  have hw : Written A ((countChild o).push stack alloc kind) (c.openingBytes o.type)
      (c.exec A o) := .inl hexec
  have hs : ((countChild o).push stack alloc kind).s = o.s := countChild_s o
  have hpushwf : ((countChild o).push stack alloc kind).s.sb.WF := by
    rw [hs]
    exact ho.buf
  have hbuild := ho.opened_build kind
  have hfits : A.toAllocator.Succeeds ∨
      o.s.sb.size + (c.openingBytes o.type).length ≤ o.s.sb.alloc := by
    have hfits := hA.room
    rw [hstep, hbuild, List.length_append, ← hstyle] at hfits
    rw [← ho.buf.bytes_length]
    exact hfits
  -- there is memory for the opening bytes
  obtain ⟨sb', hr, happ⟩ := hw.served (by rw [hs]; exact hfits) hpushwf hpos
  rw [hs] at happ
  rw [hstep]
  set o' := ((countChild o).push stack alloc kind).wrote sb' with ho'
  have hsize : o'.stackSize = o.stackSize + 1 := congrArg (· + 1) (countChild_stackSize o)
  have hframes : o'.frames = ⟨o.bytes.length, 0, kind⟩ :: openFrames stack o.stackSize :=
    ho.pushed_frames hroom kind
  refine ⟨_, _, hr, by omega, ⟨?_, happ.wf, ?_, ?_, ?_, rfl, ?_, ?_⟩, ?_, happ.stays ho.buf⟩
  · rw [hr] at hw
    exact hw.sane (hroom.sane ho.sane.countChild kind) hpos
  · exact (countChild_type o).trans ho.mode
  · show sb'.bytes = _
    rw [happ.bytes, hbuild, hstyle]
    rfl
  · rw [hsize, ho.size]
    show _ = (⟨kind, 0, []⟩ :: t.nest.countUp.levels).length
    rw [List.length_cons, Nest.countUp_length]
  · show lost ≤ o'.stackSize
    omega
  · show o'.frames.take (o'.stackSize - lost) = _
    rw [hframes, hbuild, hsize, show o.stackSize + 1 - lost = o.stackSize - lost + 1 by omega,
      List.take_succ_cons, List.take_succ_cons, hknown]
  · intro bound ht
    exact happ.tight ho.buf ht

/-- An opening bracket: refused with 128 containers open, pushed to the array if that has room, and
to a larger one, without the entries, if not. -/
theorem Call.opens_tracks (ho : o.Tracks t) {c : Call} {kind : Kind} (hk : c.opens = some kind)
    (hA : Serves A o t (.opening kind)) :
    Follows o (c.exec A o) (t.step (.opening kind)) := by
  rcases Call.exec_opens A ho.sane.stacked hk with ⟨hexec, hfull, hwhy⟩ |
    ⟨stack, alloc, hroom, hexec⟩
  · -- it is refused where the array cannot grow: there is memory, so it is as long as it may be
    have hlimit : t.alloc = 128 := by
      rw [← ho.alloc]
      by_contra h128
      obtain ⟨st, hst⟩ := hA.stack kind rfl hfull h128
      rw [hwhy.resolve_left h128] at hst
      exact absurd hst (by simp)
    have hlen : t.nest.levels.length = t.alloc := by rw [← ho.size, ← ho.alloc, hfull]
    rw [Track.step, if_pos hlen, if_pos hlimit]
    exact ⟨_, hexec, countChild_s o⟩
  · cases hroom with
    | inPlace hlt =>
      -- there is room, and no entry is lost that was not lost before
      have hne : t.nest.levels.length ≠ t.alloc := by
        rw [countChild_stackSize, countChild_stackAlloc] at hlt
        rw [← ho.size, ← ho.alloc]
        omega
      refine Call.pushed_tracks ho hk hA (.inPlace hlt) ho.lost_le ?_ hexec ?_
      swap
      · rw [Track.step, if_neg hne, countChild_stackAlloc, ho.alloc]
      have hfr : openFrames (countChild o).stack o.stackSize = recount o.frames := by
        rw [← countChild_recount ho.sane.stacked, Obj.frames, countChild_stackSize]
      rw [hfr, recount_take, recount_take, ho.known]
    | grown hfull hlimit hnew =>
      -- the array is replaced, and all entries but the new one are lost
      have hfull' := hfull
      have hlimit' := hlimit
      rw [countChild_stackSize, countChild_stackAlloc] at hfull'
      rw [countChild_stackAlloc] at hlimit'
      have hlen : t.nest.levels.length = t.alloc := by rw [← ho.size, ← ho.alloc, hfull']
      have h128 : t.alloc ≠ 128 := by rw [← ho.alloc]; exact hlimit'
      refine Call.pushed_tracks ho hk hA (.grown hfull hlimit hnew) (Nat.le_refl _) ?_ hexec ?_
      · rw [Nat.sub_self, List.take_zero, List.take_zero]
      · rw [Track.step, if_pos hlen, if_neg h128, countChild_stackAlloc, ho.size, ho.alloc]

omit [Msgpuck] in
/-- A larger block is at most twice as large as it has to be.  It doubles, or takes what is asked
for if that is more. -/
theorem tntSbufObjectResize_alloc {A : Allocator} {sb sb' : StreamBuf} {n : Nat} {ok : Bool}
    (h : tntSbufObjectResize A sb n = some (ok, sb')) :
    sb'.alloc ≤ max sb.alloc (2 * (sb.size + n)) := by
  unfold tntSbufObjectResize at h
  split at h
  · simp only [bind, Option.bind_eq_some_iff] at h
    obtain ⟨old, -, h⟩ := h
    split at h
    · obtain ⟨-, rfl⟩ := Prod.mk.inj (Option.some.inj h)
      exact Nat.le_max_left _ _
    · obtain ⟨-, rfl⟩ := Prod.mk.inj (Option.some.inj h)
      show (if 2 * sb.alloc < sb.size + n then sb.size + n else 2 * sb.alloc) ≤ _
      split <;> omega
  · obtain ⟨-, rfl⟩ := Prod.mk.inj (Option.some.inj h)
    exact Nat.le_max_left _ _

omit [Msgpuck] in
/-- Making room for a longer header is such a growth.  The header takes one byte less than its size,
since the placeholder is there already. -/
theorem widen_alloc {sb sb' : StreamBuf} {offset sz : Nat} {ok : Bool}
    (h : widen A sb offset sz = some (ok, sb')) :
    sb'.alloc ≤ max sb.alloc (2 * (sb.size + sz - 1)) := by
  unfold widen at h
  split at h
  · next hsz =>
    simp only [bind, Option.bind_eq_some_iff] at h
    obtain ⟨⟨ok₁, sb₁⟩, hres, h⟩ := h
    have hle := tntSbufObjectResize_alloc hres
    rw [show sb.size + (sz - 1) = sb.size + sz - 1 by omega] at hle
    split at h
    · obtain ⟨-, rfl⟩ := Prod.mk.inj (Option.some.inj h)
      exact hle
    · split at h
      · exact absurd h (by simp)
      simp only [Option.bind_eq_some_iff] at h
      obtain ⟨data, -, h⟩ := h
      obtain ⟨-, rfl⟩ := Prod.mk.inj (Option.some.inj h)
      exact hle
  · obtain ⟨-, rfl⟩ := Prod.mk.inj (Option.some.inj h)
    exact Nat.le_max_left _ _

/-- A header that is written: the bytes behind it are moved, and the header goes in front of them.
The block is first made large enough.  -1 is the one thing this can fail with, so a close that
succeeds has done all of it. -/
theorem writeHeader_packed (hmode : o.type = .packed) {e : SboStack} {rv : Int} {o' : Obj}
    (h : writeHeader A o e = some (rv, o')) (hrv : rv ≠ -1) :
    ∃ sb data, widen A o.s.sb e.offset (packedSize e.type e.size.toNat) = some (true, sb) ∧
      sb.data.store e.offset (packedHeader e.type e.size.toNat) = some data ∧
      o' = o.setBuf { sb with
        data := data
        size := o.s.sb.size + packedSize e.type e.size.toNat - 1 } ∧
      0 < packedSize e.type e.size.toNat := by
  simp only [writeHeader, hmode, bind, Option.bind_eq_some_iff] at h
  obtain ⟨⟨ok, sb⟩, hw, h⟩ := h
  obtain ⟨hsize, -, -⟩ := widen_keeps hw
  cases ok with
  | false =>
    obtain ⟨rfl, -⟩ := Prod.mk.inj (Option.some.inj h)
    exact absurd rfl hrv
  | true =>
    simp only [Bool.not_true, Bool.false_eq_true, if_false, Option.bind_eq_some_iff] at h
    obtain ⟨data, hstore, h⟩ := h
    obtain ⟨-, rfl⟩ := Prod.mk.inj (Option.some.inj h)
    refine ⟨sb, data, hw, hstore, ?_, ?_⟩
    · rw [← hsize, Obj.setBuf, hmode]
    · rw [packedSize_eq, packedHeader_eq]
      exact header_length_pos packed_sound e.type e.size.toNat_lt

/-- Writing a header keeps the block tight.  The growth, if there is any, is one by doubling. -/
theorem writeHeader_tight (hmode : o.type = .packed) {e : SboStack} {rv : Int} {o' : Obj}
    (h : writeHeader A o e = some (rv, o')) (hrv : rv ≠ -1) {bound : Nat} (ht : o.Tight bound) :
    o'.Tight bound := by
  obtain ⟨sb, data, hw, -, rfl, hpos⟩ := writeHeader_packed hmode h hrv
  have halloc := widen_alloc hw
  have ht : o.s.sb.alloc ≤ max bound (2 * o.s.sb.size) := ht
  show sb.alloc ≤ max bound (2 * (o.s.sb.size + packedSize e.type e.size.toNat - 1))
  omega

omit [Msgpuck] in
/-- With room for the header, nothing is asked of the allocator.  What is left is the move of the
bytes behind the placeholder. -/
theorem widen_fits {sb : StreamBuf} {offset sz : Nat} (h : sb.size + sz - 1 ≤ sb.alloc) :
    widen A sb offset sz =
      if sz > 1 then
        if sb.size < offset + 1 then none
        else (sb.data.move (offset + sz) (offset + 1) (sb.size - offset - 1)).map
          fun data => (true, { sb with data := data })
      else some (true, sb) := by
  unfold widen
  split
  · have hres : tntSbufObjectResize A.toAllocator sb (sz - 1) = some (true, sb) := by
      rw [tntSbufObjectResize, if_neg (by omega)]
    simp only [hres, bind, Option.bind_some, Bool.not_true, Bool.false_eq_true, if_false]
    split
    · rfl
    · cases sb.data.move (offset + sz) (offset + 1) (sb.size - offset - 1) <;> rfl
  · rfl

/-- Writing the header of a container inside the bytes in use leaves what is behind them alone.  The
bytes that are moved are in use before and after. -/
theorem writeHeader_stays (hmode : o.type = .packed) {e : SboStack} {rv : Int} {o' : Obj}
    (h : writeHeader A o e = some (rv, o')) (hrv : rv ≠ -1) (hin : e.offset + 1 ≤ o.s.sb.size) :
    Stays o.s.sb o'.s.sb := by
  obtain ⟨sb, data, hw, hstore, rfl, hpos⟩ := writeHeader_packed hmode h hrv
  have hlen := packedSize_eq e
  set sz := packedSize e.type e.size.toNat with hsz
  refine ⟨show o.s.sb.size ≤ o.s.sb.size + sz - 1 by omega, ?_⟩
  intro hle
  rw [widen_fits hle] at hw
  show sb.alloc = _ ∧ ∀ mem : Bytes, _ → ∃ mem' : Bytes, data = .live mem' ∧
    mem'.drop (o.s.sb.size + sz - 1) = mem.drop (o.s.sb.size + sz - 1)
  obtain ⟨mem₁, hlive, hfit, rfl⟩ := Block.store_eq_some hstore
  -- the header itself ends where the moved bytes start
  have hheader : ∀ n, e.offset + sz ≤ n →
      (overwrite mem₁ e.offset (packedHeader e.type e.size.toNat)).drop n = mem₁.drop n := by
    intro n hn
    have hdrop := drop_overwrite hfit (n := n - e.offset) (by omega)
    rwa [show e.offset + (n - e.offset) = n by omega] at hdrop
  split at hw
  · next hwide =>
    rw [if_neg (by omega), Option.map_eq_some_iff] at hw
    obtain ⟨moved, hmove, hsb⟩ := hw
    obtain rfl := (Prod.mk.inj hsb).2
    refine ⟨rfl, ?_⟩
    intro mem hmem
    refine ⟨_, rfl, ?_⟩
    rw [hheader _ (by omega)]
    rw [hmem] at hmove
    simp only [Block.move] at hmove
    split at hmove
    · obtain ⟨mem₂, hlive₂, hfit₂, rfl⟩ := Block.store_eq_some hmove
      obtain rfl := Block.live.inj hlive₂
      obtain rfl := Block.live.inj hlive
      rw [List.length_take, List.length_drop] at hfit₂
      have hdrop := @drop_overwrite mem ((mem.drop (e.offset + 1)).take (o.s.sb.size - e.offset - 1))
        (e.offset + sz) (o.s.sb.size - e.offset - 1) (by rw [List.length_take, List.length_drop]; omega)
        (by rw [List.length_take]; omega)
      rwa [show e.offset + sz + (o.s.sb.size - e.offset - 1) = o.s.sb.size + sz - 1 by omega] at hdrop
    · exact absurd hmove (by simp)
  · obtain rfl := (Prod.mk.inj (Option.some.inj hw)).2
    refine ⟨rfl, ?_⟩
    intro mem hmem
    rw [hmem] at hlive
    obtain rfl := Block.live.inj hlive
    exact ⟨_, rfl, hheader _ (by omega)⟩

/-- Closing a container does the same with every allocator, as long as the block need not grow.  So
whether it goes through does not depend on the allocator, and can be seen with one that never fails.
-/
theorem containerClose_fits (hst : o.Stacked) (hmode : o.type = .packed) {A' : ObjAllocator}
    {rv : Int} {o' : Obj} (h : tntObjectContainerClose A' o = some (rv, o')) (hrv : rv ≠ -1)
    (hle : o'.s.sb.size ≤ o.s.sb.alloc) : tntObjectContainerClose A o = some (rv, o') := by
  rcases containerClose_cases A' hst with ⟨-, hr⟩ | ⟨e, hno, he, hr⟩
  · rw [hr] at h
    exact absurd (Prod.mk.inj (Option.some.inj h)).1.symm hrv
  · rw [hr] at h
    obtain ⟨sb, data, -, -, rfl, -⟩ := writeHeader_packed (o := o.pop) hmode h hrv
    have hsame : writeHeader A o.pop e = writeHeader A' o.pop e := by
      have hpop : o.pop.type = .packed := hmode
      simp only [writeHeader, hpop, widen_fits (A := A) hle, widen_fits (A := A') hle]
    rcases containerClose_cases A hst with ⟨hbad, -⟩ | ⟨e', -, he', hr'⟩
    · exact absurd hbad hno
    · rw [he] at he'
      obtain rfl := Option.some.inj he'
      rw [hr', hsame, h]

omit [Msgpuck] in
/-- The innermost entry is the one of the nest, unless it was lost.  This is where `known` is used:
the entry that a closing bracket reads says what the nest says. -/
theorem Obj.Tracks.top {base : Bytes} {l : Level} {ls : List Level} {lost alloc : Nat}
    (ho : o.Tracks ⟨⟨base, l :: ls⟩, lost, alloc⟩) (hlost : ¬ ls.length < lost) :
    ∃ e, o.stack[o.stackSize - 1]? = some e ∧
      o.frames = e.frame :: openFrames o.stack (o.stackSize - 1) ∧
      e.frame = ⟨(levelsBytes packed base ls).length, l.count.toNat, l.kind⟩ ∧
      (openFrames o.stack (o.stackSize - 1)).take (ls.length - lost) =
        (levelsFrames packed base ls).take (ls.length - lost) := by
  have hsize : o.stackSize = ls.length + 1 := ho.size
  obtain ⟨e, he, hf⟩ := ho.sane.stacked.frames_top (by omega)
  have hknown := ho.known
  rw [hf, show o.stackSize - lost = ls.length - lost + 1 by omega] at hknown
  simp only [Nest.build, levelsFrames, List.take_succ_cons] at hknown
  obtain ⟨htop, hrest⟩ := List.cons.inj hknown
  exact ⟨e, he, hf, htop, hrest⟩

omit [Msgpuck] in
/-- What the track refuses to close cannot be closed.  Either nothing is open, or a map with an odd
count is innermost, and these are the two tests of the code. -/
theorem Obj.Tracks.unclosable (ho : o.Tracks t) (h : (t.step .closing).1 = .refused) :
    o.Unclosable := by
  obtain ⟨⟨base, levels⟩, lost, alloc⟩ := t
  cases levels with
  | nil => exact .inl ho.size
  | cons l ls =>
    simp only [Track.step] at h
    split_ifs at h with hlost hodd
    obtain ⟨e, he, -, htop, -⟩ := ho.top hlost
    have hkind : e.type = l.kind := congrArg Frame.kind htop
    have hcount : e.size.toNat = l.count.toNat := congrArg Frame.count htop
    refine .inr ⟨e, he, ?_, ?_⟩
    · rw [hkind, hodd.1]
    · rw [hcount, hodd.2]

/-- A closing bracket that is refused. -/
theorem containerClose_refused (ho : o.Tracks t) (h : (t.step .closing).1 = .refused) :
    tntObjectContainerClose A o = some (-1, o) := by
  rcases containerClose_cases A ho.sane.stacked with ⟨-, hr⟩ | ⟨e, hno, -, -⟩
  · exact hr
  · exact absurd (ho.unclosable h) hno

/-- A closing bracket that goes through, with memory for a longer header.  The entry is known, so
the header goes to the place of its placeholder and announces what the nest has counted. -/
theorem containerClose_goes (hA : A.Succeeds) (ho : o.Tracks t) {t' : Track}
    (hstep : t.step .closing = (.goes, t')) :
    Follows o (tntObjectContainerClose A o) (.goes, t') := by
  have hwf := ho.sane.wf ho.buf
  obtain ⟨⟨base, levels⟩, lost, alloc⟩ := t
  cases levels with
  | nil => exact absurd (Prod.mk.inj hstep).1 (by decide)
  | cons l ls =>
    have hlost : ¬ ls.length < lost := by
      intro hlt
      simp [Track.step, hlt] at hstep
    have hodd : ¬ l.Odd := by
      intro hodd
      simp [Track.step, hlost, hodd] at hstep
    simp only [Track.step, if_neg hlost, if_neg hodd] at hstep
    obtain rfl := (Prod.mk.inj hstep).2
    have hsize : o.stackSize = ls.length + 1 := ho.size
    obtain ⟨e, he, hf, htop, hrest⟩ := ho.top hlost
    have hbytes : o.bytes = levelsBytes packed base (l :: ls) := ho.bytes
    have hin : e.offset + 1 ≤ o.s.sb.size := by
      have hoff : e.offset = (levelsBytes packed base ls).length := congrArg Frame.offset htop
      have hone : (l.kind.placeholder packed).length = 1 := by cases l.kind <;> rfl
      rw [hoff, ← ho.buf.bytes_length]
      show _ ≤ o.bytes.length
      rw [hbytes, levelsBytes, List.length_append, List.length_append, hone]
      omega
    rw [htop] at hf
    obtain ⟨rv, o', hexec, hrv, hwf', htype, hbuild⟩ := tntObjectContainerClose_yields hA hwf
      (S := packed) (by rw [ho.mode]; rfl) hf hodd (by rw [hbytes]; simp [levelsBytes])
    rw [hbytes] at hbuild
    have hpatch := Nest.patch_top packed base l ls
    -- the object itself: one entry less, another buffer
    obtain ⟨sb, hsame, hblock⟩ : ∃ sb, o' = o.pop.setBuf sb ∧
        (∀ bound, o.Tight bound → o'.Tight bound) ∧ Stays o.s.sb o'.s.sb := by
      rcases containerClose_cases A ho.sane.stacked with ⟨-, hr⟩ | ⟨e', -, he', hr⟩
      · rw [hr] at hexec
        exact absurd (Prod.mk.inj (Option.some.inj hexec)).1.symm hrv
      · rw [hr] at hexec
        rw [he] at he'
        obtain rfl := Option.some.inj he'
        obtain ⟨sb, data, -, -, hsame, -⟩ := writeHeader_packed (o := o.pop) ho.mode hexec hrv
        refine ⟨_, hsame, ?_, writeHeader_stays (o := o.pop) ho.mode hexec hrv hin⟩
        intro bound ht
        exact writeHeader_tight (o := o.pop) ho.mode hexec hrv ht
    have hrv0 : 0 ≤ rv := (Call.exec_returns ho.sane .close hexec).1.resolve_left hrv
    have hsize' : o'.stackSize = ls.length := by
      rw [hsame]
      show o.stackSize - 1 = _
      omega
    refine ⟨rv, o', hexec, hrv0, ⟨Call.exec_sane (c := .containerClose) ho.sane hexec, hwf'.buf, ?_,
      ?_, ?_, ?_, ?_, ?_⟩, hblock⟩
    · rw [htype, ho.mode]
    · rw [← hpatch]
      exact congrArg Build.bytes hbuild
    · rw [hsize', Nest.append_length]
    · rw [hsame]
      exact ho.alloc
    · show lost ≤ o'.stackSize
      omega
    · have hfr' : o'.frames = openFrames o.stack (o.stackSize - 1) := congrArg Build.frames hbuild
      rw [hfr', hsize', hrest, ← hpatch]

/-- A closing bracket.  If the track goes astray nothing has to be shown, and if it refuses, neither
bytes nor stack change. -/
theorem containerClose_tracks (ho : o.Tracks t) (hA : Serves A o t .closing) :
    Follows o (tntObjectContainerClose A o) (t.step .closing) := by
  obtain ⟨verdict, t', hstep⟩ : ∃ verdict t', t.step .closing = (verdict, t') := ⟨_, _, rfl⟩
  have hroom := hA.room
  rw [hstep] at hroom ⊢
  cases verdict with
  | goes =>
    rcases hroom with hmem | hfits
    · -- closing asks for no stack array
      exact containerClose_goes (A := { zeroingObj with toAllocator := A.toAllocator })
        ⟨hmem, zeroingObj_succeeds.2⟩ ho hstep
    · obtain ⟨rv, o', hexec, hrv, ho', hblock⟩ := containerClose_goes zeroingObj_succeeds ho hstep
      have hsize : o'.s.sb.size ≤ o.s.sb.alloc := by
        rw [ho'.size_eq]
        exact hfits
      refine ⟨rv, o', ?_, hrv, ho', hblock⟩
      exact containerClose_fits ho.sane.stacked ho.mode hexec (by omega) hsize
  | refused => exact ⟨o, containerClose_refused ho (by rw [hstep]), rfl⟩
  | astray => trivial

/-- **A call on the track stays on it** or is refused, as long as it does not go astray.  By cases
on the step of the track, one for each kind of call. -/
theorem Call.exec_tracks (ho : o.Tracks t) {c : Call} {op : BuildOp} (hc : c.Performs op)
    (hA : Serves A o t op) : Follows o (c.exec A o) (t.step op) := by
  cases hc with
  | leaf hv => exact Call.leaf_tracks ho hv hA
  | array => exact Call.opens_tracks ho rfl hA
  | map => exact Call.opens_tracks ho rfl hA
  | close => exact containerClose_tracks ho hA

end Step

/-! ## §3 — runs.

An induction on the calls; the invariant is that the object is on its track, and it ends where the
track ends. -/

section Run

variable [Msgpuck]

/-- What a run on the track ends with. -/
def Ends (r : Option (Int × Obj)) : Verdict × Track → Prop
  | (.goes, t) => ∃ rv o', r = some (rv, o') ∧ 0 ≤ rv ∧ o'.Tracks t
  | (.refused, t) => ∃ o', r = some (-1, o') ∧ o'.bytes = (t.nest.build packed).bytes
  | (.astray, _) => True

/-- **The calls of a format follow its track.**  An induction on the calls.  Its step is
`Call.exec_tracks`, and the result of a call is at least 0, so that the loop goes on. -/
theorem runFormat_tracks {calls : List Call} {ops : List BuildOp}
    (hp : List.Forall₂ Call.Performs calls ops) {A : Nat → ObjAllocator} (hA : ∀ k, (A k).Succeeds)
    {o : Obj} {t : Track} (ho : o.Tracks t) (k : Nat) {result : Int} (hresult : 0 ≤ result) :
    Ends (runFormat A calls k result o) (t.run ops) := by
  induction hp generalizing o t k result with
  | nil => exact ⟨result, o, rfl, hresult, ho⟩
  | @cons c op calls ops hop _ ih =>
    have hstep := Call.exec_tracks ho hop ((hA k).serves o t op)
    obtain ⟨verdict, t', ht'⟩ : ∃ verdict t', t.step op = (verdict, t') := ⟨_, _, rfl⟩
    rw [ht'] at hstep
    cases verdict with
    | goes =>
      obtain ⟨rv, o', hexec, hrv, ho', -⟩ := hstep
      have hne : rv ≠ -1 := by omega
      simp only [Track.run, ht', runFormat, hexec, bind, Option.bind_some, if_neg hne]
      exact ih ho' (k + 1) (by omega)
    | refused =>
      obtain ⟨o', hexec, hs⟩ := hstep
      simp only [Track.run, ht', runFormat, hexec, bind, Option.bind_some, if_true]
      refine ⟨o', rfl, ?_⟩
      have hsame : t' = t := Track.step_stops ht' (by decide)
      rw [hsame, ← ho.bytes, Obj.bytes, hs]
      rfl
    | astray =>
      simp only [Track.run, ht']
      trivial

/-! ## §4 — memory that leads astray. -/

/-- The entries that were lost say that an array starts at `off`. -/
def Obj.Stale (o : Obj) (t : Track) (off : Nat) : Prop :=
  ∀ i < t.lost, ∃ e, o.stack[i]? = some e ∧ e.type = .array ∧ e.offset = off

omit [Msgpuck] in
/-- Counting does not repair a lost entry.  A counter is added to, and the offset of the entry is as
it was. -/
theorem countChild_stale {o : Obj} {t : Track} {off : Nat} (h : o.Stale t off) :
    (countChild o).Stale t off := by
  intro i hi
  obtain ⟨e, he, htype, hoff⟩ := h i hi
  unfold countChild
  split
  · show ∃ e, (o.stack.modify _ _)[i]? = some e ∧ _
    rw [List.getElem?_modify, he]
    split
    · exact ⟨_, rfl, htype, hoff⟩
    · exact ⟨_, rfl, htype, hoff⟩
  · exact ⟨e, he, htype, hoff⟩

/-- An opening bracket that goes through keeps the stale entries, and adds such entries when the
array grows.  The memory is chosen so that every entry of a new array has the offset `off`. -/
theorem Call.opening_stale {off : Nat} {o o' : Obj} {t t' : Track} (ho : o.Tracks t)
    (hstale : o.Stale t off) {c : Call} {kind : Kind} (hk : c.opens = some kind)
    (hstep : t.step (.opening kind) = (.goes, t')) {rv : Int}
    (h : c.exec (staleStack off) o = some (rv, o')) (hrv : rv ≠ -1) : o'.Stale t' off := by
  have hcwf : (countChild o).s.sb.WF := by rw [countChild_s]; exact ho.buf
  rcases Call.exec_opens (staleStack off) ho.sane.stacked hk with ⟨hr, -⟩ |
    ⟨stack, alloc, hroom, hr⟩
  · rw [hr] at h
    exact absurd (Prod.mk.inj (Option.some.inj h)).1.symm hrv
  have hstack : o'.stack = stack.set o.stackSize ⟨o.s.sb.size, 0, kind⟩ := by
    have hw : Written (staleStack off) ((countChild o).push stack alloc kind)
        (c.openingBytes o.type) (some (rv, o')) := .inl (by rw [← h, hr])
    rcases hw.owned hcwf (Call.openingBytes_pos hk o.type) with ⟨hr', -⟩ | ⟨sb', hr', -⟩
    · exact absurd (Prod.mk.inj (Option.some.inj hr')).1 hrv
    · rw [(Prod.mk.inj (Option.some.inj hr')).2]
      show stack.set (countChild o).stackSize ⟨(countChild o).s.sb.size, 0, kind⟩ = _
      rw [countChild_stackSize, countChild_s]
  -- the entries below the lost ones are those of the new memory, if the array grew
  intro i hi
  rw [hstack]
  cases hroom with
  | inPlace hlt =>
    have hne : t.nest.levels.length ≠ t.alloc := by
      rw [countChild_stackSize, countChild_stackAlloc] at hlt
      rw [← ho.size, ← ho.alloc]
      omega
    rw [Track.step, if_neg hne] at hstep
    have hlost : t'.lost = t.lost := by rw [← (Prod.mk.inj hstep).2]
    have hle := ho.lost_le
    rw [List.getElem?_set_ne (by omega)]
    exact countChild_stale hstale i (by omega)
  | grown hfull hlimit hnew =>
    rw [countChild_stackSize, countChild_stackAlloc] at hfull
    rw [countChild_stackAlloc] at hlimit hnew
    have hlen : t.nest.levels.length = t.alloc := by rw [← ho.size, ← ho.alloc, hfull]
    have h128 : t.alloc ≠ 128 := by rw [← ho.alloc]; exact hlimit
    rw [Track.step, if_pos hlen, if_neg h128] at hstep
    have hlost : t'.lost = o.stackSize := by rw [← (Prod.mk.inj hstep).2, ho.size]
    obtain rfl := Option.some.inj hnew
    rw [List.getElem?_set_ne (by omega), List.getElem?_replicate_of_lt (by omega)]
    exact ⟨_, rfl, rfl, rfl⟩

omit [Msgpuck] in
/-- A step of the track that closes a container loses no entry.  It may close the last container of
which the entry is known, but not one below it. -/
theorem Track.closing_lost {t t' : Track} (h : t.step .closing = (.goes, t')) :
    t'.lost = t.lost := by
  simp only [Track.step] at h
  split at h
  · exact absurd (Prod.mk.inj h).1 (by decide)
  · split_ifs at h
    · exact absurd (Prod.mk.inj h).1 (by decide)
    · exact absurd (Prod.mk.inj h).1 (by decide)
    · rw [← (Prod.mk.inj h).2]

/-- A call that goes through keeps the stale entries, and adds such entries when the array grows. -/
theorem Call.exec_stale {off : Nat} {o o' : Obj} {t t' : Track} (ho : o.Tracks t)
    (hstale : o.Stale t off) {c : Call} {op : BuildOp} (hc : c.Performs op)
    (hstep : t.step op = (.goes, t')) {rv : Int}
    (h : c.exec (staleStack off) o = some (rv, o')) (hrv : rv ≠ -1) : o'.Stale t' off := by
  cases hc with
  | @leaf _ v hv =>
    have hcwf : (countChild o).s.sb.WF := by rw [countChild_s]; exact ho.buf
    obtain ⟨hw, hpos⟩ := Call.exec_written hv (staleStack off) o
    rw [h] at hw
    rcases hw.owned hcwf hpos with ⟨hr, -⟩ | ⟨sb', hr, -⟩
    · exact absurd (Prod.mk.inj (Option.some.inj hr)).1 hrv
    · rw [(Prod.mk.inj (Option.some.inj hr)).2, ← (Prod.mk.inj hstep).2]
      exact countChild_stale hstale
  | array => exact Call.opening_stale ho hstale rfl hstep h hrv
  | map => exact Call.opening_stale ho hstale rfl hstep h hrv
  | close =>
    have h : tntObjectContainerClose (staleStack off) o = some (rv, o') := h
    have hlost := Track.closing_lost hstep
    rcases containerClose_cases (staleStack off) ho.sane.stacked with ⟨-, hr⟩ | ⟨e, -, -, hr⟩
    · rw [hr] at h
      exact absurd (Prod.mk.inj (Option.some.inj h)).1.symm hrv
    · rw [hr] at h
      rcases writeHeader_cases h with ⟨hbad, -⟩ | ⟨sb, -, rfl, -⟩
      · exact absurd hbad hrv
      · intro i hi
        exact hstale i (by omega)

/-- Closing a container whose entry points behind the block is undefined.  Its header would be
written behind the end of the block. -/
theorem containerClose_stale {off : Nat} {o : Obj} {t : Track} (ho : o.Tracks t)
    (hstale : o.Stale t off) (hstep : (t.step .closing).1 = .astray) (hoff : o.s.sb.alloc ≤ off) :
    tntObjectContainerClose (staleStack off) o = none := by
  have hsize_le := ho.buf.size_le
  obtain ⟨htop, hpos⟩ : o.stackSize - 1 < t.lost ∧ o.stackSize ≠ 0 := by
    have hsize := ho.size
    simp only [Track.step] at hstep
    split at hstep
    · exact absurd hstep (by simp)
    next l ls hlevels =>
      rw [hlevels, List.length_cons] at hsize
      split_ifs at hstep with hlost
      exact ⟨by omega, by omega⟩
  obtain ⟨e, he, htype, heoff⟩ := hstale _ htop
  rw [tntObjectContainerClose, if_neg hpos]
  simp only [he, bind, Option.bind_some, htype, show ¬ (Kind.array = Kind.map) by decide, false_and,
    if_false, writeHeader, ho.mode, heoff]
  -- the bytes behind the header would move, or the header is stored at once: neither is inside
  by_cases hsz : packedSize .array e.size.toNat > 1
  · obtain ⟨sb₁, hres, -, -, hsame, -⟩ := tntSbufObjectResize_spec.ok
      (A := (staleStack off).toAllocator) Allocator.zeroing_succeeds ho.buf
      (n := packedSize .array e.size.toNat - 1) (by omega)
    simp only [widen, if_pos hsz, hres, bind, Option.bind_some, Bool.not_true, Bool.false_eq_true,
      if_false]
    rw [if_pos (by omega)]
    rfl
  · have hone : (packedHeader Kind.array e.size.toNat).length = 1 := by
      have hlen := packedSize_eq e
      have hhead := header_length_pos packed_sound e.type e.size.toNat_lt
      rw [← packedHeader_eq] at hhead
      rw [htype] at hlen hhead
      omega
    simp only [widen, if_neg hsz, Option.bind_some, Bool.not_true, Bool.false_eq_true, if_false]
    have hstore : o.s.sb.data.store off (packedHeader Kind.array e.size.toNat) = none := by
      rcases ho.buf.block with ⟨hnull, -⟩ | ⟨mem, hlive, hlen⟩
      · rw [hnull]
        rfl
      · rw [hlive]
        simp only [Block.store, hone]
        rw [if_neg (by omega)]
    rw [hstore]
    rfl

/-- **A track that goes astray** is followed into undefined behaviour, if the new memory says so.
The allocator is chosen after the track is known: its arrays name an offset behind the block. -/
theorem runFormat_astray {calls : List Call} {ops : List BuildOp}
    (hp : List.Forall₂ Call.Performs calls ops) {o : Obj} {t t' : Track} {bound off : Nat}
    (ho : o.Tracks t) (hstale : o.Stale t off) (htight : o.Tight bound)
    (hrun : t.run ops = (.astray, t'))
    (hoff : max bound (2 * (t'.nest.build packed).bytes.length) ≤ off) (k : Nat) (result : Int) :
    runFormat (fun _ => staleStack off) calls k result o = none := by
  have hA : (staleStack off).Succeeds := ⟨Allocator.zeroing_succeeds, fun _ => ⟨_, rfl⟩⟩
  induction hp generalizing o t k result with
  | nil => exact absurd (Prod.mk.inj hrun).1 (by decide)
  | @cons c op calls ops hop _ ih =>
    have hfollow := Call.exec_tracks ho hop (hA.serves o t op)
    obtain ⟨verdict, t₁, hstep⟩ : ∃ verdict t₁, t.step op = (verdict, t₁) := ⟨_, _, rfl⟩
    rw [hstep] at hfollow
    simp only [Track.run, hstep] at hrun
    cases verdict with
    | goes =>
      obtain ⟨rv, o', hexec, hrv, ho', htight', -⟩ := hfollow
      have hne : rv ≠ -1 := by omega
      simp only [runFormat, hexec, bind, Option.bind_some, if_neg hne]
      exact ih ho' (Call.exec_stale ho hstale hop hstep hexec hne) (htight' bound htight) hrun _ _
    | refused => exact absurd (Prod.mk.inj hrun).1 (by decide)
    | astray =>
      obtain rfl : t₁ = t' := (Prod.mk.inj hrun).2
      obtain rfl := Track.step_stops hstep (by decide)
      obtain rfl := Track.step_astray hstep
      -- only a closing bracket goes astray
      cases hop with
      | close =>
        have halloc : o.s.sb.alloc ≤ off := by
          have hsize : o.s.sb.size = (t₁.nest.build packed).bytes.length := by
            rw [← ho.bytes]
            exact ho.buf.bytes_length.symm
          have htight : o.s.sb.alloc ≤ max bound (2 * o.s.sb.size) := htight
          omega
        have hnone := containerClose_stale ho hstale (by rw [hstep]) halloc
        simp only [runFormat, Call.exec, hnone, bind, Option.bind_none]

/-- ... so that there is memory with which the run has no result. -/
theorem runFormat_undefined {calls : List Call} {ops : List BuildOp}
    (hp : List.Forall₂ Call.Performs calls ops) {o : Obj} {t : Track} (ho : o.Tracks t)
    (hlost : t.lost = 0) (h : (t.run ops).1 = .astray) :
    ∃ A : ObjAllocator, A.Succeeds ∧ runFormat (fun _ => A) calls 0 0 o = none := by
  obtain ⟨verdict, t', hrun⟩ : ∃ verdict t', t.run ops = (verdict, t') := ⟨_, _, rfl⟩
  rw [hrun] at h
  obtain rfl : verdict = .astray := h
  -- the entries point behind everything that is in the block
  let off := max o.s.sb.alloc (2 * (t'.nest.build packed).bytes.length)
  refine ⟨staleStack off, ⟨Allocator.zeroing_succeeds, fun _ => ⟨_, rfl⟩⟩, ?_⟩
  have hstale : o.Stale t off := by
    intro i hi
    omega
  have htight : o.Tight o.s.sb.alloc := Nat.le_max_left _ _
  exact runFormat_astray hp ho hstale htight hrun (Nat.le_refl _) 0 0

/-- **Which sequences of calls are refused**, whatever memory the allocator hands out: those whose
track is.  From a track that ends in a refusal the calls do; from one that goes through they go
through; and from one that goes astray there is memory with which they are undefined, so they are
not refused whatever the memory is. -/
theorem runFormat_refused_iff {calls : List Call} {ops : List BuildOp}
    (hp : List.Forall₂ Call.Performs calls ops) {o : Obj} {t : Track} (ho : o.Tracks t)
    (hlost : t.lost = 0) :
    (∀ A : Nat → ObjAllocator, (∀ k, (A k).Succeeds) →
      ∃ o', runFormat A calls 0 0 o = some (-1, o')) ↔ (t.run ops).1 = .refused := by
  obtain ⟨verdict, t', hrun⟩ : ∃ verdict t', t.run ops = (verdict, t') := ⟨_, _, rfl⟩
  constructor
  · intro hall
    rw [hrun]
    cases verdict with
    | refused => rfl
    | goes =>
      -- a track that goes through does so with any memory, so with this one
      obtain ⟨o', hfail⟩ := hall (fun _ => zeroingObj) fun _ => zeroingObj_succeeds
      have hends := runFormat_tracks hp (A := fun _ => zeroingObj) (fun _ => zeroingObj_succeeds) ho 0
        (Int.le_refl 0)
      rw [hrun] at hends
      obtain ⟨rv, o'', hok, hrv, -⟩ := hends
      rw [hfail] at hok
      have := (Prod.mk.inj (Option.some.inj hok)).1
      omega
    | astray =>
      -- one that goes astray is followed into undefined behaviour, which is no refusal
      obtain ⟨A, hA, hnone⟩ := runFormat_undefined hp ho hlost (by rw [hrun])
      obtain ⟨o', hfail⟩ := hall (fun _ => A) fun _ => hA
      rw [hnone] at hfail
      exact absurd hfail (by simp)
  · intro hverdict A hA
    rw [hrun] at hverdict
    obtain rfl : verdict = .refused := hverdict
    have hends := runFormat_tracks hp hA ho 0 (Int.le_refl 0)
    rw [hrun] at hends
    obtain ⟨o', hfail, -⟩ := hends
    exact ⟨o', hfail⟩

/-! ## §5 — formats.

What `tnt_object_vformat` makes of a format is a sequence of calls (`formatCalls`), so the last step
is to have the runs of §3 and §4 start at a blank object. -/

/-- A blank object, with the mode set, is at the start of every track. -/
theorem Blank.tracks {o : Obj} (ho : Blank o) :
    tntObjectType o .packed = (0, { o with type := .packed }) ∧
      Obj.Tracks { o with type := .packed } ⟨⟨[], []⟩, 0, o.stackAlloc⟩ := by
  obtain ⟨o', htype, hwf, hsane, -, hb⟩ := ho.setType .packed
  have hsame : o' = { o with type := .packed } := by
    rcases tntObjectType_cases htype with ⟨hbad, -⟩ | ⟨-, hset⟩
    · exact absurd hbad (by decide)
    · exact hset
  rw [hsame] at htype hwf hsane hb
  have hframes : Obj.frames { o with type := .packed } = [] := congrArg Build.frames hb
  refine ⟨htype, hsane, hwf.buf, rfl, congrArg Build.bytes hb, ?_, rfl, Nat.zero_le _, ?_⟩
  · rw [← hsane.stacked.frames_length, hframes]
    rfl
  · rw [hframes]
    rfl

/-- **Which formats are refused** on a blank object, whatever memory the allocator hands out.  The
condition mentions the format and the arguments, the size of the stack array, and nothing else. -/
theorem tntObjectVformat_refused_iff {toFloat : UInt64 → UInt32} {fmt : List Char}
    {args : List VaArg} (hm : Matches toFloat fmt 0 args) {o : Obj} (ho : Blank o) :
    (∀ A : Nat → ObjAllocator, (∀ k, (A k).Succeeds) →
      ∃ o', tntObjectVformat toFloat A o fmt args = some (-1, o')) ↔
      (Track.run (formatOps toFloat fmt args) ⟨⟨[], []⟩, 0, o.stackAlloc⟩).1 = .refused := by
  obtain ⟨calls, left, hcalls⟩ := formatCalls_matches.mpr hm
  obtain ⟨htype, htracks⟩ := ho.tracks
  have hp := @scanned_performs toFloat fmt 0 args
  rw [formatOps, ← runFormat_refused_iff hp htracks rfl]
  refine forall₂_congr fun A _ => ?_
  simp only [tntObjectVformat, htype, show ¬ (0 : Int) = -1 by decide, if_false,
    vformatLoop_eq A hcalls, scanned_eq hcalls]

end Run

end TarantoolC.Object
