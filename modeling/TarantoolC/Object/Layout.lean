/-
# TarantoolC.Object.Layout — what an accepted format leaves in the buffer.

A format that is accepted need not have left what it says.  The brackets of the format say which
containers there are and what is in them, and the headers in the buffer say it a second time; the
two agree (`HeadersAgree`) if the bytes are values with the containers of the format, whatever the
numbers and strings in them are.

Nothing in `tnt_object_vformat` looks at that.  A bracket left open keeps its placeholder, a closing
bracket of the wrong kind closes all the same, a counter wraps around at `2^32`, and where the stack
array was replaced a closing bracket writes its header wherever the new memory says.
`tntObjectVformat_agrees_iff` tells for which formats, with any arguments that match, the call
either fails or leaves bytes whose headers agree: the track of the format
(`TarantoolC.Object.Reject`) ends in a refusal, or the format is one of the grammar, goes through and
has fewer than `2^32` values directly between each pair of brackets.

The leaves are left open on purpose.  An argument that is a string of `2 ^ 32` bytes is cut off by
the code, and what is stored is not what was meant; but the headers of the containers are right, and
that is what is asked for here.  The `skeleton` of a value (`TarantoolC.Object.Grammar`) is the
measure: the same containers with as many members, whatever the leaves.

The proof goes from the track to the nest (`Track.run_nest`): a track that goes through closes only
containers whose entries are known, and is a run of the nest with room for all of it.  So the bytes
are those of `wrapped` values with the containers of the format (`Formatted.comes_to`), and the
headers agree exactly if nothing has wrapped (`headersAgree_iff`).
-/
import TarantoolC.Object.Reject

namespace TarantoolC.Object

open MsgPack Msgpuck

/-! ## §1 — the calls of a format, whatever its arguments.

The containers of a format can be read off its brackets, before any argument is known. -/

section Scan

variable {toFloat : UInt64 → UInt32}

/-- The conversion a specifier stands for adds a value. -/
theorem Specifier.conversion {s : List Char} {as : List VaArg} {v : Value}
    (h : Specifier toFloat s as v) (f : List Char) :
    ∃ conv more, Object.conversion (s ++ f) = some (conv, more) ∧ conv ≠ .percent ∧
      1 + more = s.length := by
  cases h with
  | int h v =>
    simp only [List.mem_cons, List.not_mem_nil, or_false] at h
    rcases h with rfl | rfl | rfl | rfl | rfl | rfl <;> exact ⟨_, _, rfl, by decide, rfl⟩
  | ushort h v hpos =>
    simp only [List.mem_cons, List.not_mem_nil, or_false] at h
    rcases h with rfl | rfl <;> exact ⟨_, _, rfl, by decide, rfl⟩
  | long h v =>
    simp only [List.mem_cons, List.not_mem_nil, or_false] at h
    rcases h with rfl | rfl <;> exact ⟨_, _, rfl, by decide, rfl⟩
  | llong h v =>
    simp only [List.mem_cons, List.not_mem_nil, or_false] at h
    rcases h with rfl | rfl <;> exact ⟨_, _, rfl, by decide, rfl⟩
  | _ => exact ⟨_, _, rfl, by decide, rfl⟩

/-- A conversion other than `%%` adds a value, of whatever arguments it takes. -/
theorem Conv.call_leaf {conv : Conv} {args args' : List VaArg} {call : Option Call}
    (hconv : conv ≠ .percent) (h : conv.call toFloat args = some (call, args')) :
    ∃ c w, call = some c ∧ c.leafValue = some w := by
  unfold Conv.call at h
  split at h
  case h_12 => exact absurd rfl hconv
  all_goals
    simp only [bind, Option.bind_eq_some_iff, pure, Option.some.injEq, Prod.mk.injEq,
      reduceCtorEq] at h
    try
      obtain ⟨_, -, rfl, -⟩ := h
      exact ⟨_, _, rfl, rfl⟩
    try
      obtain ⟨_, -, _, -, rfl, -⟩ := h
      exact ⟨_, _, rfl, rfl⟩
    try
      obtain ⟨rfl, -⟩ := h
      exact ⟨_, _, rfl, rfl⟩

/-- A directive with a specifier passes over it, and adds a value. -/
theorem Specifier.adds {s : List Char} {as : List VaArg} {v : Value} (h : Specifier toFloat s as v)
    {f : List Char} {args args' : List VaArg} {call : Option Call} {skip : Nat}
    (hdir : Object.directive toFloat ('%' :: (s ++ f)) args = some (call, skip, args')) :
    skip = s.length ∧ ∃ c w, call = some c ∧ c.leafValue = some w := by
  obtain ⟨conv, more, hconv, hne, hlen⟩ := h.conversion f
  simp only [Object.directive, hconv, bind, Option.bind_some, Option.bind_eq_some_iff, pure,
    Option.some.injEq, Prod.mk.injEq, Prod.exists] at hdir
  obtain ⟨call', args₁, hcall, rfl, rfl, rfl⟩ := hdir
  exact ⟨hlen, Conv.call_leaf hne hcall⟩

/-- What a specifier describes is no container. -/
theorem Specifier.skeleton {s : List Char} {as : List VaArg} {v : Value}
    (h : Specifier toFloat s as v) : Object.skeleton v = .nil := by
  have hint : ∀ z, Object.skeleton (integer z) = .nil := by
    intro z
    unfold integer
    split <;> rfl
  cases h with
  | int h v => exact hint _
  | uint v => exact hint _
  | ushort h v hpos => exact hint _
  | long h v => exact hint _
  | ulong v => exact hint _
  | llong h v => exact hint _
  | ullong v => exact hint _
  | _ => rfl

/-- Values with the containers of keys and values are keys and values. -/
theorem flat_of_skeleton {ws : List Value} {kvs : List (Value × Value)}
    (h : skeletonAll ws = skeletonAll (flat kvs)) :
    ∃ ps, ws = flat ps ∧ skeletonPairs ps = skeletonPairs kvs := by
  induction kvs generalizing ws with
  | nil =>
    cases ws with
    | nil => exact ⟨[], rfl, rfl⟩
    | cons w ws => exact absurd h (by simp [skeletonAll, flat])
  | cons kv kvs ih =>
    obtain ⟨k, v⟩ := kv
    -- a map takes its items two at a time, so one item alone is not enough for a pair
    rcases ws with _ | ⟨k', _ | ⟨v', ws⟩⟩
    · exact absurd h (by simp [skeletonAll, flat])
    · exact absurd h (by simp [skeletonAll, flat])
    · obtain ⟨hk, h⟩ := List.cons.inj h
      obtain ⟨hv, h⟩ := List.cons.inj h
      obtain ⟨ps, rfl, hps⟩ := ih h
      exact ⟨(k', v') :: ps, rfl, by rw [skeletonPairs, skeletonPairs, hk, hv, hps]⟩

/-- Arguments that match go on matching behind what was scanned. -/
theorem Matches.behind {calls : List Call} {f f' : List Char} {args args' : List VaArg}
    (h : Matches toFloat f 0 args)
    (hscan : formatCalls toFloat f 0 args = scanBehind toFloat calls f' args') :
    Matches toFloat f' 0 args' := by
  obtain ⟨calls', left, hcalls⟩ := formatCalls_matches.mpr h
  rw [hscan, scanBehind, Option.map_eq_some_iff] at hcalls
  obtain ⟨⟨rest, left'⟩, hrest, -⟩ := hcalls
  exact formatCalls_matches.mp ⟨rest, left', hrest⟩

/-- **The scanner follows the grammar, whatever the arguments**: those of one description say which
containers there are, and with any others that match these are the containers of what is added.  So
the containers are known before any argument is looked at. -/
theorem Items.replays {f f' : List Char} {as as' : List VaArg} {vs : List Value}
    (h : Items toFloat f as vs f' as') {args : List VaArg} (hm : Matches toFloat f 0 args) :
    ∃ calls args' ws, formatCalls toFloat f 0 args = scanBehind toFloat calls f' args' ∧
      skeletonAll ws = skeletonAll vs ∧ ReplaysAll ws calls := by
  induction h generalizing args with
  | stop f as => exact ⟨[], args, [], scanBehind_nil f args, rfl, .nil⟩
  | @skip c f as vs f' as' hc _ ih =>
    have hone := @formatCalls_directive toFloat c [] f args args none (hc.directive args)
    obtain ⟨calls, args', ws, hscan, hskel, hreplay⟩ := ih (hm.behind hone)
    exact ⟨calls, args', ws, hone.trans (scanBehind_trans hscan), hskel, hreplay⟩
  | @percent f as vs f' as' _ ih =>
    have hone := @formatCalls_percent toFloat f args
    obtain ⟨calls, args', ws, hscan, hskel, hreplay⟩ := ih (hm.behind hone)
    exact ⟨calls, args', ws, hone.trans (scanBehind_trans hscan), hskel, hreplay⟩
  | @nil f as vs f' as' _ ih =>
    have hone := @formatCalls_nil toFloat f args
    obtain ⟨calls, args', ws, hscan, hskel, hreplay⟩ := ih (hm.behind hone)
    have hleaf : Replays .nil [.addNil] := .leaf rfl
    exact ⟨.addNil :: calls, args', .nil :: ws, hone.trans (scanBehind_trans hscan),
      congrArg (Value.nil :: ·) hskel, .cons hleaf hreplay⟩
  | @value s as v f _ vs f' as' hspec _ ih =>
    have hfirst := hm
    obtain ⟨call, skip, args₁, hdir, -⟩ := hfirst
    obtain ⟨rfl, c, w, rfl, hw⟩ := hspec.adds hdir
    have hone := formatCalls_directive hdir
    obtain ⟨calls, args', ws, hscan, hskel, hreplay⟩ := ih (hm.behind hone)
    have hleaf : Replays w [c] := .leaf hw
    refine ⟨c :: calls, args', w :: ws, hone.trans (scanBehind_trans hscan), ?_, .cons hleaf hreplay⟩
    rw [skeletonAll, skeletonAll, hskel, skeleton_leaf (Call.leafValue_fits hw).2, hspec.skeleton]
  | @array xs f as f₁ as₁ vs f' as' _ _ ihx ih =>
    have hopen := @formatCalls_openArray toFloat f args
    obtain ⟨inner, args₁, xs', hinner, hskelx, hreplayx⟩ := ihx (hm.behind hopen)
    have hclose := @formatCalls_closeArray toFloat f₁ args₁
    obtain ⟨calls, args', ws, hscan, hskel, hreplay⟩ :=
      ih (((hm.behind hopen).behind hinner).behind hclose)
    refine ⟨_, args', .array xs' :: ws, formatCalls_array hinner hscan, ?_,
      .cons (.array 0 hreplayx) hreplay⟩
    rw [skeletonAll, skeletonAll, skeleton, skeleton, hskelx, hskel]
  | @map kvs f as f₁ as₁ vs f' as' _ _ ihx ih =>
    have hopen := @formatCalls_openMap toFloat f args
    obtain ⟨inner, args₁, xs', hinner, hskelx, hreplayx⟩ := ihx (hm.behind hopen)
    have hclose := @formatCalls_closeMap toFloat f₁ args₁
    obtain ⟨calls, args', ws, hscan, hskel, hreplay⟩ :=
      ih (((hm.behind hopen).behind hinner).behind hclose)
    -- what stands between the braces pairs up again
    obtain ⟨ps, rfl, hps⟩ := flat_of_skeleton hskelx
    refine ⟨_, args', .map ps :: ws, formatCalls_map hinner hscan, ?_,
      .cons (.map 0 hreplayx) hreplay⟩
    rw [skeletonAll, skeletonAll, skeleton, skeleton, hps, hskel]

end Scan

/-! ## §2 — tracks that go through.

No bracket is refused and no entry is read that was lost; so the format is one of the grammar, or
one that leaves brackets open. -/

/-- A call that goes through does to the nest what it does with room for it. -/
theorem Track.step_nest {t t' : Track} {op : BuildOp} (h : t.step op = (.goes, t')) (cap : Nat)
    (hcap : t.nest.levels.length < cap) :
    t.nest.step packed cap op = some t'.nest ∧
      t'.nest.levels.length ≤ t.nest.levels.length + 1 := by
  cases op with
  | leaf bs =>
    obtain rfl := (Prod.mk.inj h).2
    exact ⟨rfl, by simp⟩
  | opening k =>
    -- whether the array is replaced or not, the nest gets one more level
    have hopened : t'.nest = t.nest.opened k := by
      simp only [Track.step] at h
      split_ifs at h
      · exact absurd (Prod.mk.inj h).1 (by decide)
      · rw [← (Prod.mk.inj h).2]
      · rw [← (Prod.mk.inj h).2]
    rw [hopened, Nest.step, if_pos hcap]
    exact ⟨rfl, by simp [Nest.opened]⟩
  | closing =>
    obtain ⟨⟨base, levels⟩, lost, alloc⟩ := t
    cases levels with
    | nil => exact absurd (Prod.mk.inj h).1 (by decide)
    | cons l ls =>
      simp only [Track.step] at h
      -- neither a lost entry nor an odd map: the level is closed
      split_ifs at h with hlost hodd
      · exact absurd (Prod.mk.inj h).1 (by decide)
      · exact absurd (Prod.mk.inj h).1 (by decide)
      · rw [← (Prod.mk.inj h).2]
        refine ⟨by simp only [Nest.step, if_neg hodd], ?_⟩
        rw [Nest.append_length]
        show ls.length ≤ ls.length + 1 + 1
        omega

/-- **A track that goes through** is a run of the nest with room for all of it.  It closes only
containers whose entries are known, so no content of new memory comes into it. -/
theorem Track.run_nest {ops : List BuildOp} {t t' : Track} (h : t.run ops = (.goes, t')) (cap : Nat)
    (hcap : t.nest.levels.length + ops.length ≤ cap) :
    Nest.steps packed cap ops t.nest = some t'.nest := by
  induction ops generalizing t with
  | nil =>
    obtain rfl := (Prod.mk.inj h).2
    rfl
  | cons op ops ih =>
    rw [List.length_cons] at hcap
    obtain ⟨verdict, t₁, hstep⟩ : ∃ verdict t₁, t.step op = (verdict, t₁) := ⟨_, _, rfl⟩
    simp only [Track.run, hstep] at h
    cases verdict with
    | goes =>
      obtain ⟨hnest, hlen⟩ := Track.step_nest hstep cap (by omega)
      rw [Nest.steps, hnest, Option.bind_some]
      exact ih h (by omega)
    | refused => exact absurd (Prod.mk.inj h).1 (by decide)
    | astray => exact absurd (Prod.mk.inj h).1 (by decide)

/-- Where values are emitted from an empty nest and the track goes through, they are what is
left. -/
theorem Track.run_emitsAll {vs : List Value} {ops : List BuildOp} (h : EmitsAll vs ops)
    {alloc : Nat} {t' : Track} (hrun : Track.run ops ⟨⟨[], []⟩, 0, alloc⟩ = (.goes, t')) :
    t'.nest = ⟨wrappedAll packed vs, []⟩ := by
  have hroom := Track.run_nest hrun (max (depthAll vs) ops.length)
    (by show 0 + ops.length ≤ _; omega)
  rw [Nest.steps_emitsAll_nil packed h (Nat.le_max_left _ _)] at hroom
  exact (Option.some.inj hroom).symm

/-! ## §3 — headers.

The bytes are known up to the counts, so whether the headers agree is whether the counts do. -/

/-- The bytes are values with the containers of the format: each header has as many members as stand
between its brackets.  The leaves may be any. -/
def HeadersAgree (toFloat : UInt64 → UInt32) (fmt : List Char) (bytes : Bytes) : Prop :=
  ∃ args vs ws, Formatted toFloat fmt args vs ∧ skeletonAll ws = skeletonAll vs ∧
    EncodesAll ws bytes

/-- A format of the grammar with fewer than `2^32` values directly between each pair of brackets. -/
def NarrowFormat (toFloat : UInt64 → UInt32) (fmt : List Char) : Prop :=
  ∃ args vs, Formatted toFloat fmt args vs ∧ NarrowAll vs

mutual

/-- What calls have put in has an encoding, if no counter has wrapped around. -/
theorem Replays.fits : ∀ {w : Value} {calls : List Call}, Replays w calls → Narrow w → w.Fits
  | _, _, .leaf h, _ => (Call.leafValue_fits h).1
  | .array _, _, .array _ hxs, h => ⟨h.1, hxs.fits h.2⟩
  | .map kvs, _, .map _ hkvs, h => by
    have hcount : 2 * kvs.length < 2 ^ 32 := h.1
    exact ⟨by omega, (fitsPairs_iff kvs).mpr (hkvs.fits ((narrowPairs_iff kvs).mp h.2))⟩

/-- A sequence that was replayed has an encoding, if no container is too large. -/
theorem ReplaysAll.fits : ∀ {ws : List Value} {calls : List Call}, ReplaysAll ws calls →
    NarrowAll ws → FitsAll ws
  | _, _, .nil, _ => trivial
  | _, _, .cons hw hws, h => ⟨hw.fits h.1, hws.fits h.2⟩

end

section Headers

variable {toFloat : UInt64 → UInt32}

/-- A call makes one step of a builder. -/
theorem Call.Performs.op {c : Call} {op : BuildOp} (h : c.Performs op) : c.op = some op := by
  cases h with
  | @leaf _ v hv =>
    have hop : c.leafValue.map (fun v => BuildOp.leaf (encode v)) = some (.leaf (encode v)) := by
      rw [hv]
      rfl
    cases c with
    | addArray | addMap => exact absurd hv (by simp [Call.leafValue])
    | containerClose => exact absurd hv (by simp [Call.leafValue])
    | _ => exact hop
  | array => rfl
  | map => rfl
  | close => rfl

/-- **What a format of the grammar comes to**, whatever its arguments, on a track that goes through:
values with the containers of the format, announced by 32-bit counters. -/
theorem Formatted.comes_to {fmt : List Char} {as args : List VaArg} {vs : List Value}
    (h : Formatted toFloat fmt as vs) (hm : Matches toFloat fmt 0 args) {alloc : Nat} {t : Track}
    (hrun : Track.run (formatOps toFloat fmt args) ⟨⟨[], []⟩, 0, alloc⟩ = (.goes, t)) :
    ∃ calls ws, skeletonAll ws = skeletonAll vs ∧ ReplaysAll ws calls ∧
      (t.nest.build packed).bytes = wrappedAll packed ws := by
  obtain ⟨calls, args', ws, hscan, hskel, hreplay⟩ := Items.replays h hm
  have hcalls : formatCalls toFloat fmt 0 args = some (calls, args') := by
    rw [hscan, scanBehind, formatCalls]
    simp
  obtain ⟨ops, hemits, hp⟩ := hreplay.emits
  have hops : formatOps toFloat fmt args = ops := by
    rw [formatOps, scanned_eq hcalls]
    clear hreplay hemits hcalls hscan
    induction hp with
    | nil => rfl
    | cons hop _ ih => rw [List.filterMap_cons, hop.op, ih]
  rw [hops] at hrun
  rw [Track.run_emitsAll hemits hrun]
  exact ⟨calls, ws, hskel, hreplay, rfl⟩

/-- **When the headers agree**: the format is one of the grammar, and no counter has wrapped around.
The bytes of a counter that has wrapped are an encoding of fewer members, and what is left over
stands behind it. -/
theorem headersAgree_iff {fmt : List Char} {args : List VaArg} (hm : Matches toFloat fmt 0 args)
    {alloc : Nat} {t : Track}
    (hrun : Track.run (formatOps toFloat fmt args) ⟨⟨[], []⟩, 0, alloc⟩ = (.goes, t)) :
    HeadersAgree toFloat fmt (t.nest.build packed).bytes ↔ NarrowFormat toFloat fmt := by
  constructor
  · rintro ⟨as, vs, ws', h, hskel', hencodes⟩
    obtain ⟨calls, ws, hskel, hreplay, hbytes⟩ := h.comes_to hm hrun
    have hsame : (t.nest.build packed).bytes ++ [] = wrappedAll packed ws ++ [] := by rw [hbytes]
    obtain ⟨hnarrow, -⟩ := hreplay.narrow (hskel'.trans hskel.symm) hencodes hsame
    refine ⟨as, vs, h, ?_⟩
    rw [← narrowAll_skeleton vs, ← hskel]
    exact (narrowAll_skeleton ws).mpr hnarrow
  · rintro ⟨as, vs, h, hnarrow⟩
    obtain ⟨calls, ws, hskel, hreplay, hbytes⟩ := h.comes_to hm hrun
    have hnarrow : NarrowAll ws := by
      rw [← narrowAll_skeleton ws, hskel]
      exact (narrowAll_skeleton vs).mpr hnarrow
    refine ⟨as, vs, ws, h, hskel, ?_⟩
    rw [hbytes, wrappedAll_narrow ws hnarrow]
    exact encodesAll_encodeAllWith packed_sound ws (hreplay.fits hnarrow)

end Headers

section Formats

variable [Msgpuck] {toFloat : UInt64 → UInt32}

/-- What a format whose track goes through leaves. -/
theorem tntObjectVformat_goes {fmt : List Char} {args : List VaArg} (hm : Matches toFloat fmt 0 args)
    {o : Obj} (ho : Blank o) {t : Track}
    (hrun : Track.run (formatOps toFloat fmt args) ⟨⟨[], []⟩, 0, o.stackAlloc⟩ = (.goes, t))
    {A : Nat → ObjAllocator} (hA : ∀ k, (A k).Succeeds) :
    ∃ rv o', tntObjectVformat toFloat A o fmt args = some (rv, o') ∧ 0 ≤ rv ∧
      o'.s.sb.data ≠ .freed ∧ o'.bytes = (t.nest.build packed).bytes := by
  obtain ⟨calls, left, hcalls⟩ := formatCalls_matches.mpr hm
  obtain ⟨htype, htracks⟩ := ho.tracks
  have hends := runFormat_tracks (@scanned_performs toFloat fmt 0 args) hA htracks 0 (Int.le_refl 0)
  rw [← formatOps, hrun] at hends
  obtain ⟨rv, o', hexec, hrv, ho'⟩ := hends
  refine ⟨rv, o', ?_, hrv, ?_, ho'.bytes⟩
  · simp only [tntObjectVformat, htype, show ¬ (0 : Int) = -1 by decide, if_false,
      vformatLoop_eq A hcalls, ← scanned_eq hcalls, hexec]
  · rcases ho'.buf.block with ⟨hnull, -⟩ | ⟨mem, hlive, -⟩
    · simp [hnull]
    · simp [hlive]

/-- A format that goes astray has no result, with some memory. -/
theorem tntObjectVformat_astray {fmt : List Char} {args : List VaArg}
    (hm : Matches toFloat fmt 0 args) {o : Obj} (ho : Blank o)
    (h : (Track.run (formatOps toFloat fmt args) ⟨⟨[], []⟩, 0, o.stackAlloc⟩).1 = .astray) :
    ∃ A : ObjAllocator, A.Succeeds ∧ tntObjectVformat toFloat (fun _ => A) o fmt args = none := by
  obtain ⟨calls, left, hcalls⟩ := formatCalls_matches.mpr hm
  obtain ⟨htype, htracks⟩ := ho.tracks
  obtain ⟨A, hA, hnone⟩ :=
    runFormat_undefined (@scanned_performs toFloat fmt 0 args) htracks rfl h
  refine ⟨A, hA, ?_⟩
  simp only [tntObjectVformat, htype, show ¬ (0 : Int) = -1 by decide, if_false,
    vformatLoop_eq (fun _ => A) hcalls, ← scanned_eq hcalls, hnone]

/-- **When a format fails or leaves headers that agree**, in memory that can be read, on a blank
object and whatever memory the allocator hands out: its track ends in a refusal, or goes through
with a format of the grammar none of whose counters wraps around. -/
theorem tntObjectVformat_agrees_iff {fmt : List Char} {args : List VaArg}
    (hm : Matches toFloat fmt 0 args) {o : Obj} (ho : Blank o) :
    (∀ A : Nat → ObjAllocator, (∀ k, (A k).Succeeds) →
      ∃ rv o', tntObjectVformat toFloat A o fmt args = some (rv, o') ∧
        (rv ≠ -1 → o'.s.sb.data ≠ .freed ∧ HeadersAgree toFloat fmt o'.bytes)) ↔
      (Track.run (formatOps toFloat fmt args) ⟨⟨[], []⟩, 0, o.stackAlloc⟩).1 = .refused ∨
      (Track.run (formatOps toFloat fmt args) ⟨⟨[], []⟩, 0, o.stackAlloc⟩).1 = .goes ∧
        NarrowFormat toFloat fmt := by
  obtain ⟨verdict, t, hrun⟩ : ∃ verdict t,
    Track.run (formatOps toFloat fmt args) ⟨⟨[], []⟩, 0, o.stackAlloc⟩ = (verdict, t) := ⟨_, _, rfl⟩
  cases verdict with
  | refused =>
    -- a refusal is what is asked for, whatever the headers are
    have hrefused := (tntObjectVformat_refused_iff hm ho).mpr (by rw [hrun])
    refine ⟨fun _ => .inl (by rw [hrun]), fun _ A hA => ?_⟩
    obtain ⟨o', hfail⟩ := hrefused A hA
    exact ⟨-1, o', hfail, fun hne => absurd rfl hne⟩
  | goes =>
    rw [hrun, ← headersAgree_iff hm hrun]
    constructor
    · -- one allocator is enough to see the bytes, which do not depend on it
      intro hall
      obtain ⟨rv, o', hformat, hagree⟩ := hall (fun _ => zeroingObj) fun _ => zeroingObj_succeeds
      obtain ⟨rv', o'', hformat', hrv, -, hbytes⟩ :=
        tntObjectVformat_goes hm ho hrun (A := fun _ => zeroingObj) fun _ => zeroingObj_succeeds
      rw [hformat] at hformat'
      obtain ⟨rfl, rfl⟩ := Prod.mk.inj (Option.some.inj hformat')
      rw [← hbytes]
      exact .inr ⟨rfl, (hagree (by omega)).2⟩
    · rintro (hbad | ⟨-, hagree⟩) A hA
      · exact absurd hbad (by simp)
      · obtain ⟨rv, o', hformat, -, hlive, hbytes⟩ := tntObjectVformat_goes hm ho hrun hA
        refine ⟨rv, o', hformat, fun _ => ⟨hlive, ?_⟩⟩
        rw [hbytes]
        exact hagree
  | astray =>
    rw [hrun]
    constructor
    · intro hall
      -- and one is enough to see that they are not defined
      obtain ⟨A, hA, hnone⟩ := tntObjectVformat_astray hm ho (by rw [hrun])
      obtain ⟨rv, o', hformat, -⟩ := hall (fun _ => A) fun _ => hA
      rw [hnone] at hformat
      exact absurd hformat (by simp)
    · rintro (hbad | ⟨hbad, -⟩)
      · exact absurd hbad (by simp)
      · exact absurd hbad (by simp)

end Formats

end TarantoolC.Object
