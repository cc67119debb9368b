/-
# TarantoolC.Object.Scan — a format as a sequence of calls.

`tnt_object_vformat` does two things in one loop: it takes the format and the arguments apart, and
it calls the object.  They do not depend on each other, except that the first call that fails ends
the loop.  `formatCalls` is the first half (the calls, and the arguments that are left), `runFormat`
the second, and `vformatLoop_eq` puts them together; what a format does to the buffer is then a
matter of its calls, and the nest of `TarantoolC.Object.Nest` follows these (`runFormat_nest`).

Undefined formats are still scanned up to the point where they are: `runFormat` makes the calls
before it, and if one of them fails the loop has ended there (`vformatLoop_refused_iff`).  So a
format can be refused although it would be undefined further on, exactly as in the source.
-/
import TarantoolC.Object.Nesting

namespace TarantoolC.Object

open MsgPack Msgpuck

/-! ## §1 — the calls of a format.

The scan alone: characters and arguments in, calls out.  It ends where the string does or where an
argument is missing. -/

section Scan

variable (toFloat : UInt64 → UInt32)

/-- The calls a format makes if none fails, and the arguments it leaves; `skip` characters have been
dealt with already. -/
def formatCalls : List Char → Nat → List VaArg → Option (List Call × List VaArg)
  | [], _, args => some ([], args)
  | _ :: f, skip + 1, args => formatCalls f skip args
  | c :: f, 0, args => do
    let (call, skip, args) ← directive toFloat (c :: f) args
    let (calls, left) ← formatCalls f skip args
    return (call.toList ++ calls, left)

variable {toFloat}

/-- Characters that were dealt with already are passed over. -/
theorem formatCalls_skip (s f : List Char) (args : List VaArg) :
    formatCalls toFloat (s ++ f) s.length args = formatCalls toFloat f 0 args := by
  induction s with
  | nil => rfl
  | cons c s ih => rw [List.cons_append, List.length_cons, formatCalls, ih]

/-- A format has calls exactly if its arguments are what it says. -/
theorem formatCalls_matches {f : List Char} {skip : Nat} {args : List VaArg} :
    (∃ calls left, formatCalls toFloat f skip args = some (calls, left)) ↔
      Matches toFloat f skip args := by
  induction f generalizing skip args with
  | nil => exact ⟨fun _ => trivial, fun _ => ⟨[], args, by rw [formatCalls]⟩⟩
  | cons c f ih =>
    cases skip with
    | succ skip => exact ih
    | zero =>
      constructor
      · rintro ⟨calls, left, h⟩
        simp only [formatCalls, bind, Option.bind_eq_some_iff] at h
        obtain ⟨⟨call, skip, args'⟩, hdir, ⟨calls', left'⟩, hrest, -⟩ := h
        exact ⟨call, skip, args', hdir, ih.mp ⟨_, _, hrest⟩⟩
      · rintro ⟨call, skip, args', hdir, hrest⟩
        obtain ⟨calls, left, h⟩ := ih.mpr hrest
        refine ⟨call.toList ++ calls, left, ?_⟩
        simp only [formatCalls, hdir, h, bind, Option.bind_some, pure]

/-- What a call does to a builder, if it is one of those that build. -/
def Call.op : Call → Option BuildOp
  | .addArray _ => some (.opening .array)
  | .addMap _ => some (.opening .map)
  | .containerClose => some .closing
  | c => c.leafValue.map fun v => .leaf (encode v)

/-- A call that neither resets the object nor sets its mode is a step of a builder. -/
theorem Call.performs {c : Call} (hreset : c ≠ .reset) (hset : ∀ t, c ≠ .setType t) :
    ∃ op, c.op = some op ∧ c.Performs op := by
  cases c with
  | addArray size => exact ⟨_, rfl, .array⟩
  | addMap size => exact ⟨_, rfl, .map⟩
  | containerClose => exact ⟨_, rfl, .close⟩
  | setType t => exact absurd rfl (hset t)
  | reset => exact absurd rfl hreset
  | _ => exact ⟨_, rfl, .leaf rfl⟩

variable (toFloat) in
/-- The calls a format makes if none fails, up to its end or to the first directive that is
undefined. -/
def scanned : List Char → Nat → List VaArg → List Call
  | [], _, _ => []
  | _ :: f, skip + 1, args => scanned f skip args
  | c :: f, 0, args =>
    match directive toFloat (c :: f) args with
    | none => []
    | some (call, skip, args) => call.toList ++ scanned f skip args

variable (toFloat) in
/-- ... as the steps of a builder. -/
def formatOps (fmt : List Char) (args : List VaArg) : List BuildOp :=
  (scanned toFloat fmt 0 args).filterMap Call.op

/-- A format that is defined to its end is scanned to its end. -/
theorem scanned_eq {f : List Char} {skip : Nat} {args left : List VaArg} {calls : List Call}
    (h : formatCalls toFloat f skip args = some (calls, left)) :
    scanned toFloat f skip args = calls := by
  induction f generalizing skip args calls with
  | nil =>
    rw [formatCalls] at h
    exact (Prod.mk.inj (Option.some.inj h)).1
  | cons c f ih =>
    cases skip with
    | succ skip => exact ih h
    | zero =>
      simp only [formatCalls, bind, Option.bind_eq_some_iff] at h
      obtain ⟨⟨call, skip, args'⟩, hdir, ⟨calls', left'⟩, hrest, hend⟩ := h
      obtain ⟨rfl, rfl⟩ := Prod.mk.inj (Option.some.inj hend)
      simp only [scanned, hdir, ih hrest]

/-- The calls of a format are steps of a builder. -/
theorem scanned_performs (f : List Char) (skip : Nat) (args : List VaArg) :
    List.Forall₂ Call.Performs (scanned toFloat f skip args)
      ((scanned toFloat f skip args).filterMap Call.op) := by
  induction f generalizing skip args with
  | nil => exact .nil
  | cons c f ih =>
    cases skip with
    | succ skip => exact ih skip args
    | zero =>
      rw [scanned]
      cases hdir : directive toFloat (c :: f) args with
      | none => exact .nil
      | some p =>
        obtain ⟨call, skip, args'⟩ := p
        cases call with
        | none => exact ih skip args'
        | some call =>
          obtain ⟨hreset, hset⟩ := directive_call hdir
          obtain ⟨op, hop, hperforms⟩ := Call.performs hreset hset
          simp only [Option.toList_some, List.singleton_append, List.filterMap_cons, hop]
          exact .cons hperforms (ih skip args')

end Scan

/-! ## §2 — making the calls.

The calls alone: each on what the one before has left, up to the first that returns -1. -/

section Run

variable [Msgpuck]

/-- Make the calls, up to the first that fails, and add up what they return. -/
def runFormat (A : Nat → ObjAllocator) : List Call → Nat → Int → Obj → Option (Int × Obj)
  | [], _, result, o => some (result, o)
  | call :: calls, k, result, o => do
    let (rv, o) ← call.exec (A k) o
    if rv = -1 then return (-1, o)
    runFormat A calls (k + 1) (result + rv) o

/-- **The loop makes the calls of the format.**  The scan stops the loop where the format is
undefined, and a call that fails stops it before. -/
theorem vformatLoop_eq {toFloat : UInt64 → UInt32} (A : Nat → ObjAllocator) {f : List Char}
    {skip : Nat} {args left : List VaArg} {calls : List Call}
    (h : formatCalls toFloat f skip args = some (calls, left)) (k : Nat) (result : Int) (o : Obj) :
    vformatLoop toFloat A f skip args k result o = runFormat A calls k result o := by
  induction f generalizing skip args calls k result o with
  | nil =>
    rw [formatCalls] at h
    obtain ⟨rfl, -⟩ := Prod.mk.inj (Option.some.inj h)
    rw [vformatLoop, runFormat]
  | cons c f ih =>
    cases skip with
    | succ skip =>
      rw [vformatLoop]
      exact ih h k result o
    | zero =>
      simp only [formatCalls, bind, Option.bind_eq_some_iff] at h
      obtain ⟨⟨call, skip, args'⟩, hdir, ⟨calls', left'⟩, hrest, hend⟩ := h
      obtain ⟨rfl, rfl⟩ := Prod.mk.inj (Option.some.inj hend)
      simp only [vformatLoop, hdir, bind, Option.bind_some]
      -- a character that asks for no call leaves the object to the rest of the format
      cases call with
      | none => exact ih hrest k result o
      | some call =>
        simp only [Option.toList_some, List.singleton_append, runFormat, bind]
        cases call.exec (A k) o with
        | none => rfl
        | some p =>
          simp only [Option.bind_some]
          split
          · rfl
          · exact ih hrest _ _ _

/-- What a call returns is an error or a number of bytes, and it does not change whose buffer it
is. -/
theorem Call.exec_returns {A : ObjAllocator} {o o' : Obj} (ho : o.Sane) {c : Call} {op : BuildOp}
    (hc : c.Performs op) {rv : Int} (h : c.exec A o = some (rv, o')) :
    (rv = -1 ∨ 0 ≤ rv) ∧ o'.s.sb.fixed = o.s.sb.fixed := by
  -- a write returns its length
  have hwrite : ∀ o₁ bs, o₁.Sane → o₁.s = o.s → 0 < bs.length → Written A o₁ bs (some (rv, o')) →
      (rv = -1 ∨ 0 ≤ rv) ∧ o'.s.sb.fixed = o.s.sb.fixed := by
    intro o₁ bs hsane hs hpos hw
    rw [← hs]
    rcases hsane.buf with hfix | ⟨hfix, hfreed⟩ | hwf
    · obtain ⟨hrv, rfl⟩ := Prod.mk.inj (Option.some.inj (hw.fixed hfix))
      exact ⟨.inl hrv, rfl⟩
    · exact absurd (hw.dangling hfix hfreed hpos) (by simp)
    · rcases hw.owned hwf hpos with ⟨hr, -⟩ | ⟨sb', hr, happ⟩
      · obtain ⟨hrv, rfl⟩ := Prod.mk.inj (Option.some.inj hr)
        exact ⟨.inl hrv, rfl⟩
      · obtain ⟨hrv, rfl⟩ := Prod.mk.inj (Option.some.inj hr)
        refine ⟨.inr (by omega), ?_⟩
        rw [hwf.owned]
        exact happ.wf.owned
  have hopen : ∀ kind, c.opens = some kind → (rv = -1 ∨ 0 ≤ rv) ∧
      o'.s.sb.fixed = o.s.sb.fixed := by
    intro kind hk
    rcases Call.exec_opens A ho.stacked hk with ⟨hr, -⟩ | ⟨stack, alloc, hroom, hr⟩
    · rw [h] at hr
      obtain ⟨hrv, rfl⟩ := Prod.mk.inj (Option.some.inj hr)
      exact ⟨.inl hrv, by rw [countChild_s]⟩
    · refine hwrite _ _ (hroom.sane ho.countChild kind) (countChild_s o)
        (Call.openingBytes_pos hk o.type) (.inl ?_)
      rw [← h, hr]
  cases hc with
  | leaf hv =>
    obtain ⟨hw, hpos⟩ := Call.exec_written hv A o
    rw [h] at hw
    exact hwrite _ _ ho.countChild (countChild_s o) hpos hw
  | array => exact hopen _ rfl
  | map => exact hopen _ rfl
  | close =>
    have h : tntObjectContainerClose A o = some (rv, o') := h
    rcases containerClose_cases A ho.stacked with ⟨-, hr⟩ | ⟨e, -, -, hr⟩
    · rw [hr] at h
      obtain ⟨hrv, rfl⟩ := Prod.mk.inj (Option.some.inj h)
      exact ⟨.inl hrv.symm, rfl⟩
    · rw [hr] at h
      rcases writeHeader_cases h with ⟨hrv, -, rfl⟩ | ⟨sb, hrv, rfl, hsame, -⟩
      · exact ⟨.inl hrv, rfl⟩
      · exact ⟨.inr (by omega), hsame⟩

/-- **The loop fails where one of its calls does**, also in a format that is undefined further
on. -/
theorem vformatLoop_refused_iff {toFloat : UInt64 → UInt32} (A : Nat → ObjAllocator) {f : List Char}
    {skip : Nat} {args : List VaArg} (k : Nat) {result : Int} (hresult : 0 ≤ result) {o o' : Obj}
    (ho : o.Sane) :
    vformatLoop toFloat A f skip args k result o = some (-1, o') ↔
      runFormat A (scanned toFloat f skip args) k result o = some (-1, o') := by
  -- the loop is behind its last call: it has not failed
  have hnot : ∀ {r : Int} {p : Obj}, 0 ≤ r → some (r, p) ≠ some (-1, o') := by
    intro r p hr heq
    have := (Prod.mk.inj (Option.some.inj heq)).1
    omega
  induction f generalizing skip args k result o with
  | nil => rw [vformatLoop, scanned, runFormat]
  | cons c f ih =>
    cases skip with
    | succ skip =>
      rw [vformatLoop, scanned]
      exact ih k hresult ho
    | zero =>
      rw [vformatLoop, scanned]
      cases hdir : directive toFloat (c :: f) args with
      | none =>
        simp only [bind, Option.bind_none, runFormat]
        exact ⟨fun h => absurd h (by simp), fun h => absurd h (hnot hresult)⟩
      | some p =>
        obtain ⟨call, skip, args'⟩ := p
        simp only [bind, Option.bind_some]
        cases call with
        | none => exact ih k hresult ho
        | some call =>
          obtain ⟨hreset, hset⟩ := directive_call hdir
          obtain ⟨op, -, hop⟩ := Call.performs hreset hset
          simp only [Option.toList_some, List.singleton_append, runFormat, bind]
          cases hexec : call.exec (A k) o with
          | none => simp only [Option.bind_none]
          | some p =>
            obtain ⟨rv, o₁⟩ := p
            simp only [Option.bind_some]
            split
            · rfl
            · next hrv =>
              have hnonneg : 0 ≤ rv := (Call.exec_returns ho hop hexec).1.resolve_left hrv
              exact ih (k + 1) (by omega) (Call.exec_sane ho hexec)

/-- A format leads from objects that are reached to such objects. -/
theorem vformatLoop_reached {toFloat : UInt64 → UInt32} {A : Nat → ObjAllocator}
    {f : List Char} {skip k : Nat} {args : List VaArg} {result rv : Int} {o o' : Obj}
    (ho : Reached o) (hfix : o.s.sb.fixed = false)
    (h : vformatLoop toFloat A f skip args k result o = some (rv, o')) :
    Reached o' ∧ o'.s.sb.fixed = false := by
  induction f generalizing skip args k result o with
  | nil =>
    rw [vformatLoop] at h
    obtain ⟨-, rfl⟩ := Prod.mk.inj (Option.some.inj h)
    exact ⟨ho, hfix⟩
  | cons c f ih =>
    cases skip with
    | succ skip =>
      rw [vformatLoop] at h
      exact ih ho hfix h
    | zero =>
      simp only [vformatLoop, bind, Option.bind_eq_some_iff] at h
      obtain ⟨⟨call, skip, args'⟩, hdir, h⟩ := h
      cases call with
      | none => exact ih ho hfix h
      | some call =>
        simp only [Option.bind_eq_some_iff] at h
        obtain ⟨⟨rv₁, o₁⟩, hexec, h⟩ := h
        -- a directive never resets the object nor changes its type, so it is one of the safe calls
        obtain ⟨hreset, hset⟩ := directive_call hdir
        obtain ⟨op, -, hop⟩ := Call.performs hreset hset
        have hfix₁ : o₁.s.sb.fixed = false := (Call.exec_returns ho.sane hop hexec).2.trans hfix
        -- a failing call ends the loop in the object it left, any other goes on from there
        split at h
        · obtain ⟨-, rfl⟩ := Prod.mk.inj (Option.some.inj h)
          exact ⟨ho.call hexec, hfix₁⟩
        · exact ih (ho.call hexec) hfix₁ h

/-! ## §3 — a format and the nest.

In the packed mode, with memory for everything, and as long as the stack array is not replaced, each
call is a step of the nest. -/

/-- **The calls of a format, at most eight containers deep**, do what the nest does. -/
theorem runFormat_nest {S : Style} {calls : List Call} {ops : List BuildOp}
    (hp : List.Forall₂ Call.Performs calls ops) {A : Nat → ObjAllocator} (hA : ∀ k, (A k).Succeeds)
    {o : Obj} (ho : o.WF) (hsane : o.Sane) (hmode : o.type.style = some S) {n n' : Nest}
    (hb : o.build = n.build S) (hn : n.steps S 8 ops = some n') (k : Nat) {result : Int}
    (hresult : 0 ≤ result) :
    ∃ rv o', runFormat A calls k result o = some (rv, o') ∧ 0 ≤ rv ∧ o'.WF ∧ o'.build = n'.build S := by
  induction hp generalizing o n k result with
  | nil =>
    obtain rfl := Option.some.inj hn
    exact ⟨result, o, rfl, hresult, ho, hb⟩
  | @cons c op calls ops hop _ ih =>
    simp only [Nest.steps, Option.bind_eq_some_iff] at hn
    obtain ⟨n₁, hstep, hrest⟩ := hn
    have hroom : Roomy o c := by
      intro hopens
      have hlen : n.levels.length = o.stackSize := by
        rw [← ho.stacked.frames_length, show o.frames = _ from congrArg Build.frames hb]
        exact (levelsFrames_length S n.base n.levels).symm
      -- the nest has room for eight levels, and so has the array of a new object
      have hlt : n.levels.length < 8 := by
        cases hop with
        | leaf hv => cases c <;> simp [Call.opens, Call.leafValue] at hopens hv
        | close => simp [Call.opens] at hopens
        | array =>
          by_contra hge
          simp [Nest.step, if_neg hge] at hstep
        | map =>
          by_contra hge
          simp [Nest.step, if_neg hge] at hstep
      have := ho.alloc_ge
      omega
    have hfollow := Call.exec_nest (hA k) ho hsane hmode hb hop hroom
    rw [Nest.step_mono (by omega) hstep] at hfollow
    obtain ⟨rv, o₁, hexec, hrv, hwf₁, htype, hb₁⟩ := hfollow
    have hnonneg : 0 ≤ rv := (Call.exec_returns hsane hop hexec).1.resolve_left hrv
    have hsum : 0 ≤ result + rv := by omega
    obtain ⟨rv', o', hrun, hrest'⟩ := ih hwf₁ (Call.exec_sane hsane hexec) (by rw [htype]; exact hmode)
      hb₁ hrest (k + 1) hsum
    refine ⟨rv', o', ?_, hrest'⟩
    simp only [runFormat, hexec, bind, Option.bind_some, if_neg hrv, hrun]

end Run

end TarantoolC.Object
