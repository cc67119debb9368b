/-
# TarantoolC.Object.Failure — what a call that returns -1 leaves behind.

Every `tnt_object_add_*` counts the new element in the innermost container BEFORE it writes it, and
the two that open a container push their entry before they write the header; neither is undone when
the write, or the allocation of a larger stack, fails.  `tnt_object_container_close` pops the entry
before it makes room for the header.  So the object is as before only where there is nothing to
count, or where closing is refused at once.

`tntObject_failures` says this for every state that is reached, and that runs whose failures are all
of the harmless kind are the runs without them.

`Unchanged` is a matter of the entries of the open containers, their number, the mode and the
stream: the stream is as it was, or its block was released by a `realloc` that failed, which no call
can help.  An entry of the array that is not in use may differ.  `Harmless` is a condition on the
call and the state before it, never on what the call left.
-/
import TarantoolC.Object.Nesting

namespace TarantoolC.Object

open MsgPack Msgpuck

/-! ## §1 — unchanged objects.

What counts as the object being as it was: a caller sees the bytes, the mode, and what the
containers will announce. -/

/-- The object is as before, except that its block may have been released. -/
structure Unchanged (o o' : Obj) : Prop where
  entries : o'.frames = o.frames
  stackSize : o'.stackSize = o.stackSize
  type : o'.type = o.type
  stream : o'.s = o.s ∨ o'.s = o.freed.s

/-- A call that leaves it so when it fails: a leaf outside of all containers, or a close that has
nothing to close. -/
def Harmless (o : Obj) (c : Call) : Prop :=
  c.leafValue ≠ none ∧ o.stackSize = 0 ∨ c = .containerClose ∧ o.Unclosable

/-- A child that is counted shows. -/
theorem recount_ne_self {f : Frame} {fs : List Frame} : recount (f :: fs) ≠ f :: fs := by
  intro h
  have hcount : (f.count + 1) % 2 ^ 32 = f.count := congrArg Frame.count (List.cons.inj h).1
  omega

/-- An element that was counted shows. -/
theorem countChild_changed {o : Obj} (h : o.Stacked) (hpos : o.stackSize ≠ 0) :
    (countChild o).frames ≠ o.frames := by
  obtain ⟨e, -, hf⟩ := h.frames_top hpos
  rw [countChild_recount h, hf]
  exact recount_ne_self

/-- Outside of containers nothing is counted. -/
theorem countChild_empty {o : Obj} (h : o.stackSize = 0) : countChild o = o := by
  have hno : ¬ o.stackSize > 0 := by omega
  rw [countChild, if_neg hno]

/-- A write that fails. -/
theorem Written.failed {A : ObjAllocator} {o o' : Obj} {bs : Bytes}
    (h : Written A o bs (some (-1, o'))) (ho : o.Sane) (hpos : 0 < bs.length) :
    o' = o ∨ o' = o.freed := by
  rcases ho.buf with hfix | ⟨hfix, hfreed⟩ | hwf
  · obtain ⟨-, rfl⟩ := Prod.mk.inj (Option.some.inj (h.fixed hfix))
    exact .inl rfl
  · exact absurd (h.dangling hfix hfreed hpos) (by simp)
  · rcases h.owned hwf hpos with ⟨hr, -⟩ | ⟨sb', hr, -⟩
    · exact .inr (Prod.mk.inj (Option.some.inj hr)).2
    · have hlen := (Prod.mk.inj (Option.some.inj hr)).1
      omega

/-! ## §2 — calls.

The harmless failures are listed from the code: refused before anything was touched, or with no
container open to count in. -/

section Calls

variable [Msgpuck] {A : ObjAllocator} {o o' : Obj}

/-- A leaf that fails has been counted all the same. -/
theorem Call.leaf_failed (ho : o.Sane) {c : Call} {v : Value} (hv : c.leafValue = some v)
    (h : c.exec A o = some (-1, o')) : o' = countChild o ∨ o' = (countChild o).freed := by
  obtain ⟨hw, hpos⟩ := Call.exec_written hv A o
  rw [h] at hw
  exact hw.failed ho.countChild hpos

/-- A container that could not be opened has been counted, or is on the stack. -/
theorem Call.opens_failed (ho : o.Sane) {c : Call} {kind : Kind} (hk : c.opens = some kind)
    (h : c.exec A o = some (-1, o')) : ¬ Unchanged o o' := by
  intro hsame
  rcases Call.exec_opens A ho.stacked hk with ⟨hr, hfull, -⟩ | ⟨stack, alloc, hroom, hr⟩
  · rw [h] at hr
    obtain ⟨-, rfl⟩ := Prod.mk.inj (Option.some.inj hr)
    have hpos : o.stackSize ≠ 0 := by
      have := ho.stacked.alloc_pos
      omega
    exact countChild_changed ho.stacked hpos hsame.entries
  · have hw : Written A ((countChild o).push stack alloc kind) (c.openingBytes o.type)
        (some (-1, o')) := .inl (by rw [← h, hr])
    have hsize : o'.stackSize = o.stackSize + 1 := by
      rcases hw.failed (hroom.sane ho.countChild kind) (Call.openingBytes_pos hk o.type) with
        rfl | rfl
      · exact congrArg (· + 1) (countChild_stackSize o)
      · exact congrArg (· + 1) (countChild_stackSize o)
    have := hsame.stackSize
    omega

/-- A close that fails has changed nothing, or lost the entry. -/
theorem containerClose_failed (ho : o.Sane) (h : tntObjectContainerClose A o = some (-1, o')) :
    (o.Unclosable ∧ o' = o) ∨ (¬ o.Unclosable ∧ o'.stackSize + 1 = o.stackSize) := by
  rcases containerClose_cases A ho.stacked with ⟨hno, hr⟩ | ⟨e, hyes, -, hr⟩
  · rw [hr] at h
    exact .inl ⟨hno, (Prod.mk.inj (Option.some.inj h)).2.symm⟩
  · rw [hr] at h
    have hpos : o.stackSize ≠ 0 := fun hzero => hyes (.inl hzero)
    rcases writeHeader_cases h with ⟨-, -, rfl⟩ | ⟨sb, hrv, -⟩
    · refine .inr ⟨hyes, ?_⟩
      show o.stackSize - 1 + 1 = o.stackSize
      omega
    · exact absurd hrv (by decide)

/-- **When a failed call leaves the object as it was.**  One direction is an inspection of what is
done before the failure, the other a look at the counter that has gone up. -/
theorem Call.failed_unchanged_iff (ho : o.Sane) {c : Call} (hc : c.Adds ∨ c = .containerClose)
    (h : c.exec A o = some (-1, o')) : Unchanged o o' ↔ Harmless o c := by
  cases hv : c.leafValue with
  | some v =>
    have hne : c ≠ .containerClose := by
      rintro rfl
      simp [Call.leafValue] at hv
    have hwhich := Call.leaf_failed ho hv h
    constructor
    · intro hsame
      refine .inl ⟨by rw [hv]; simp, ?_⟩
      -- the call has counted itself in its parent, if it has one
      by_contra hpos
      have hfr : o'.frames = (countChild o).frames := by
        rcases hwhich with rfl | rfl
        · rfl
        · rfl
      exact countChild_changed ho.stacked hpos (hfr ▸ hsame.entries)
    · rintro (⟨-, hzero⟩ | ⟨hclose, -⟩)
      · rw [countChild_empty hzero] at hwhich
        rcases hwhich with rfl | rfl
        · exact ⟨rfl, rfl, rfl, .inl rfl⟩
        · exact ⟨rfl, rfl, rfl, .inr rfl⟩
      · exact absurd hclose hne
  | none =>
    cases hk : c.opens with
    | some kind =>
      constructor
      · intro hsame
        -- a container that is refused has been counted, or its entry is left on the stack
        exact absurd hsame (Call.opens_failed ho hk h)
      · rintro (⟨hleaf, -⟩ | ⟨rfl, -⟩)
        · exact absurd hv hleaf
        · simp [Call.opens] at hk
    | none =>
      obtain rfl : c = .containerClose := by
        rcases hc with (hadd | hadd) | hclose
        · exact absurd hv hadd
        · exact absurd hk hadd
        · exact hclose
      rcases containerClose_failed ho h with ⟨hno, rfl⟩ | ⟨hyes, hsize⟩
      · exact ⟨fun _ => .inr ⟨rfl, hno⟩, fun _ => ⟨rfl, rfl, rfl, .inl rfl⟩⟩
      · constructor
        · intro hsame
          -- the entry was taken off before the header could not be written
          have := hsame.stackSize
          omega
        · rintro (⟨hleaf, -⟩ | ⟨-, hno⟩)
          · exact absurd hv hleaf
          · exact absurd hno hyes

/-- A released block stays released. -/
theorem Call.exec_dangling (ho : o.Sane) (hfreed : o.s.sb.data = .freed) {c : Call} {rv : Int}
    (h : c.exec A o = some (rv, o')) : o'.s.sb.data = .freed := by
  -- a write on an object with the same stream
  have hwrite : ∀ o₁ bs, o₁.s = o.s → 0 < bs.length → Written A o₁ bs (some (rv, o')) →
      o'.s.sb.data = .freed := by
    intro o₁ bs hs hpos hw
    cases hfix : o.s.sb.fixed with
    | false =>
      exact absurd (hw.dangling (by rw [hs, hfix]) (by rw [hs, hfreed]) hpos) (by simp)
    | true =>
      obtain ⟨-, rfl⟩ := Prod.mk.inj (Option.some.inj (hw.fixed (by rw [hs, hfix])))
      rw [hs, hfreed]
  cases hv : c.leafValue with
  | some v =>
    obtain ⟨hw, hpos⟩ := Call.exec_written hv A o
    rw [h] at hw
    exact hwrite _ _ (countChild_s o) hpos hw
  | none =>
    cases hk : c.opens with
    | some kind =>
      rcases Call.exec_opens A ho.stacked hk with ⟨hr, -⟩ | ⟨stack, alloc, -, hr⟩
      · rw [h] at hr
        obtain ⟨-, rfl⟩ := Prod.mk.inj (Option.some.inj hr)
        rw [countChild_s, hfreed]
      · refine hwrite ((countChild o).push stack alloc kind) _ (countChild_s o)
          (Call.openingBytes_pos hk o.type) (.inl ?_)
        rw [← h, hr]
    | none =>
      cases c with
      | containerClose =>
        have h : tntObjectContainerClose A o = some (rv, o') := h
        rcases containerClose_cases A ho.stacked with ⟨-, hr⟩ | ⟨e, -, -, hr⟩
        · rw [hr] at h
          obtain ⟨-, rfl⟩ := Prod.mk.inj (Option.some.inj h)
          exact hfreed
        · rw [hr] at h
          rcases writeHeader_cases h with ⟨-, -, rfl⟩ | ⟨sb, -, rfl, -, -, hkeep⟩
          · show o.s.sb.data.free = .freed
            rw [hfreed]
            rfl
          · exact hkeep hfreed
      | setType type =>
        rcases tntObjectType_cases (Option.some.inj h) with ⟨-, rfl⟩ | ⟨-, rfl⟩
        · exact hfreed
        · exact hfreed
      | reset =>
        obtain ⟨-, rfl⟩ := Prod.mk.inj (Option.some.inj h)
        exact hfreed
      | addArray size => exact absurd hk (by simp [Call.opens])
      | addMap size => exact absurd hk (by simp [Call.opens])
      | _ => exact absurd hv (by simp [Call.leafValue])

end Calls

/-! ## §3 — runs.

Two runs in step, one with the failing calls and one without.  Where a failure is harmless the
second stands still. -/

section Runs

variable [Msgpuck]

/-- The calls of a run that did not return -1. -/
def succeeded : List (ObjAllocator × Call) → List Int → List (ObjAllocator × Call)
  | p :: calls, rv :: rvs => if rv = -1 then succeeded calls rvs else p :: succeeded calls rvs
  | _, _ => []

/-- Every add or close of the run that fails is harmless where it fails. -/
def HarmlessRun : List (ObjAllocator × Call) → Obj → Prop
  | [], _ => True
  | (A, c) :: calls, o => ∀ rv o', c.exec A o = some (rv, o') →
      (rv = -1 → c.Adds ∨ c = .containerClose → Harmless o c) ∧ HarmlessRun calls o'

/-- The block is not released in a run that ends with a block. -/
theorem runCalls_dangling {calls : List (ObjAllocator × Call)} {o o' : Obj} {rvs : List Int}
    (ho : o.Sane) (hrun : runCalls calls o = some (rvs, o')) (hend : o'.s.sb.data ≠ .freed) :
    o.s.sb.data ≠ .freed := by
  induction calls generalizing o rvs with
  | nil =>
    obtain ⟨-, rfl⟩ := Prod.mk.inj (Option.some.inj hrun)
    exact hend
  | cons p calls ih =>
    obtain ⟨A, c⟩ := p
    simp only [runCalls, bind, Option.bind_eq_some_iff] at hrun
    obtain ⟨⟨rv, o₁⟩, hexec, ⟨rvs', o₂⟩, hrest, hout⟩ := hrun
    obtain ⟨-, rfl⟩ := Prod.mk.inj (Option.some.inj hout)
    intro hfreed
    exact ih (Call.exec_sane ho hexec) hrest (Call.exec_dangling ho hfreed hexec)

/-- A harmless failure that does not release the block changes nothing at all. -/
theorem Call.failed_same {A : ObjAllocator} {o o' : Obj} (ho : o.Sane) {c : Call}
    (h : c.exec A o = some (-1, o')) (hsafe : c.Adds ∨ c = .containerClose → Harmless o c)
    (hkept : o'.s.sb.data ≠ .freed) : o' = o := by
  -- `free(NULL)` is all that can have happened to the block
  have hnull : o' = o.freed → o' = o := by
    rintro rfl
    cases hd : o.s.sb.data with
    | null =>
      obtain ⟨⟨⟨data, size, alloc, rdoff, fixed⟩, wrcnt, reqid⟩, stack, n, m, type⟩ := o
      obtain rfl : data = .null := hd
      rfl
    | live mem => exact absurd (by show o.s.sb.data.free = _; rw [hd]; rfl) hkept
    | freed => exact absurd (by show o.s.sb.data.free = _; rw [hd]; rfl) hkept
  cases hv : c.leafValue with
  | some v =>
    have hzero : o.stackSize = 0 := by
      rcases hsafe (.inl (.inl (by rw [hv]; simp))) with ⟨-, hzero⟩ | ⟨rfl, -⟩
      · exact hzero
      · simp [Call.leafValue] at hv
    have hwhich := Call.leaf_failed ho hv h
    rw [countChild_empty hzero] at hwhich
    exact hwhich.elim id hnull
  | none =>
    cases hk : c.opens with
    | some kind =>
      rcases hsafe (.inl (.inr (by rw [hk]; simp))) with ⟨hleaf, -⟩ | ⟨rfl, -⟩
      · exact absurd hv hleaf
      · simp [Call.opens] at hk
    | none =>
      cases c with
      | containerClose =>
        rcases containerClose_failed ho h with ⟨-, hsame⟩ | ⟨hyes, -⟩
        · exact hsame
        · rcases hsafe (.inr rfl) with ⟨hleaf, -⟩ | ⟨-, hno⟩
          · exact absurd hv hleaf
          · exact absurd hno hyes
      | setType type =>
        rcases tntObjectType_cases (Option.some.inj h) with ⟨-, hsame⟩ | ⟨hbad, -⟩
        · exact hsame
        · exact absurd hbad (by decide)
      | reset => exact absurd (Prod.mk.inj (Option.some.inj h)).1 (by decide)
      | addArray size => exact absurd hk (by simp [Call.opens])
      | addMap size => exact absurd hk (by simp [Call.opens])
      | _ => exact absurd hv (by simp [Call.leafValue])

/-- **A run without its harmless failures** is the same run.  The two runs have the same containers,
counters and bytes at every point; only the lost block may end this. -/
theorem runCalls_succeeded {calls : List (ObjAllocator × Call)} {o o' : Obj} {rvs : List Int}
    (ho : o.Sane) (hsafe : HarmlessRun calls o) (hrun : runCalls calls o = some (rvs, o'))
    (hend : o'.s.sb.data ≠ .freed) :
    runCalls (succeeded calls rvs) o = some (rvs.filter (· ≠ -1), o') := by
  induction calls generalizing o rvs with
  | nil =>
    obtain ⟨rfl, rfl⟩ := Prod.mk.inj (Option.some.inj hrun)
    rfl
  | cons p calls ih =>
    obtain ⟨A, c⟩ := p
    simp only [runCalls, bind, Option.bind_eq_some_iff] at hrun
    obtain ⟨⟨rv, o₁⟩, hexec, ⟨rvs', o₂⟩, hrest, hout⟩ := hrun
    obtain ⟨rfl, rfl⟩ := Prod.mk.inj (Option.some.inj hout)
    have hsane₁ := Call.exec_sane ho hexec
    obtain ⟨hfail, hsafe₁⟩ := hsafe rv o₁ hexec
    have hrest' := ih hsane₁ hsafe₁ hrest
    by_cases hrv : rv = -1
    · subst hrv
      obtain rfl : o₁ = o :=
        Call.failed_same ho hexec (hfail rfl) (runCalls_dangling hsane₁ hrest hend)
      simpa [succeeded] using hrest'
    · simp only [succeeded, if_neg hrv, runCalls, hexec, bind, Option.bind_some, hrest', pure]
      rw [List.filter_cons_of_pos (by simpa using hrv)]

/-- **What failed calls leave behind.**  In every state that is reached, an add or a close that
returns -1 leaves the object as it was if and only if it is harmless there; and a run all of whose
failures are harmless goes, unless its buffer was lost, exactly as if they had not been tried: what
the containers count are the elements that were written.  Harmless is a call that fails at its first
step, or whose steps that were taken can be seen by nobody.  Not so a call that has counted its
element before the write fails, or that has pushed its entry: then a container announces one more
than it has.  The simulation is with the same run from which the failed calls are left out. -/
theorem tntObject_failures :
    (∀ (A : ObjAllocator) (o o' : Obj) (c : Call), Reached o → c.Adds ∨ c = .containerClose →
      c.exec A o = some (-1, o') → (Unchanged o o' ↔ Harmless o c)) ∧
    ∀ (calls : List (ObjAllocator × Call)) (o o' : Obj) (rvs : List Int), Reached o →
      HarmlessRun calls o → runCalls calls o = some (rvs, o') → o'.s.sb.data ≠ .freed →
        runCalls (succeeded calls rvs) o = some (rvs.filter (· ≠ -1), o') := by
  refine ⟨?_, ?_⟩
  · intro A o o' c ho hc h
    exact Call.failed_unchanged_iff ho.sane hc h
  · intro calls o o' rvs ho hsafe hrun hend
    exact runCalls_succeeded ho.sane hsafe hrun hend

end Runs

/-- A leaf that finds no memory on a new object, and the same leaf once there is some. -/
theorem tntObject_failures_fresh :
    let calls := [(noMemory, Call.addNil), (zeroingObj, .addNil)]
    ∃ o', @Call.exec Msgpuck.reference noMemory (tntObject zeroStack) .addNil =
        some (-1, tntObject zeroStack) ∧ Unchanged (tntObject zeroStack) (tntObject zeroStack) ∧
      @runCalls Msgpuck.reference calls (tntObject zeroStack) = some ([-1, 1], o') ∧
      @runCalls Msgpuck.reference (succeeded calls [-1, 1]) (tntObject zeroStack) =
        some ([-1, 1].filter (· ≠ -1), o') := by
  let _ := Msgpuck.reference
  have hfail : Call.exec noMemory (tntObject zeroStack) .addNil = some (-1, tntObject zeroStack) :=
    rfl
  have hharmless : Harmless (tntObject zeroStack) .addNil := .inl ⟨by simp [Call.leafValue], rfl⟩
  refine ⟨_, hfail, ?_, rfl, ?_⟩
  · exact (tntObject_failures.1 noMemory _ _ .addNil (.new rfl) (.inl (.inl (by simp [Call.leafValue])))
      hfail).mpr hharmless
  · refine tntObject_failures.2 [(noMemory, .addNil), (zeroingObj, .addNil)] _ _ _ (.new rfl) ?_ rfl
      (by decide)
    intro rv o' hexec
    obtain ⟨rfl, rfl⟩ := Prod.mk.inj (Option.some.inj (hfail.symm.trans hexec))
    exact ⟨fun _ _ => hharmless, fun _ _ _ => ⟨fun _ _ => hharmless, trivial⟩⟩

/-- Eight open arrays and no memory for a larger stack: the ninth is refused, and closing the
innermost array, which is empty, announces an element. -/
theorem tntObject_failures_nine :
    ∃ o o', @Reached Msgpuck.reference eightOpen ∧
      @Call.exec Msgpuck.reference noMemory eightOpen (.addArray 0) = some (-1, o) ∧
      ¬ Unchanged eightOpen o ∧
      @Call.exec Msgpuck.reference noMemory o .containerClose = some (0, o') ∧
      o'.bytes = List.replicate 7 0x90 ++ [0x91] := by
  refine ⟨_, _, eightOpen_reached, rfl, ?_, rfl, by decide +kernel⟩
  intro hsame
  exact absurd hsame.entries (by decide +kernel)

end TarantoolC.Object
