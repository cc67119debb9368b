/-
# TarantoolC.Object.Simple — building without closing (`TNT_SBO_SIMPLE`).

In the simple mode the caller announces the size of every container and the header is final; the
documentation asks for no `tnt_object_container_close` there, and the library's own callers make
none.  But `tnt_object_add_array` and `tnt_object_add_map` push an entry in every mode, and nothing
pops it.  So the stack counts the containers of the WHOLE value, not the open ones, and the 129th is
refused.

`tntObject_simple_iff` is exact: a value can be built this way if and only if it has at most 128
containers.  What the entries hold is of no interest, since nothing reads them in this mode.

`AnnouncedAll` relates a sequence of values to the calls that build it: one for a leaf, and one for
a container with its size, before those of its children.  What these calls write is the canonical
encoding (`AnnouncedAll.output`), and how many of them push is the number of containers, so the run
is an induction on the calls with two numbers, the bytes so far and the pushes so far.
-/
import TarantoolC.Object.Nesting

namespace TarantoolC.Object

open MsgPack Msgpuck

/-! ## §1 — announced sizes.

The calls that build a value in this mode: for a container its size, then its children, and no
closing. -/

mutual

/-- The calls emit the value in pre-order, with the true size of every container and no close. -/
inductive Announced : Value → List Call → Prop
  | leaf {c v} (h : c.leafValue = some v) : Announced v [c]
  | array {xs calls} (h : AnnouncedAll xs calls) :
      Announced (.array xs) (.addArray (UInt32.ofNat xs.length) :: calls)
  | map {kvs calls} (h : AnnouncedAll (flat kvs) calls) :
      Announced (.map kvs) (.addMap (UInt32.ofNat kvs.length) :: calls)

inductive AnnouncedAll : List Value → List Call → Prop
  | nil : AnnouncedAll [] []
  | cons {v vs xs ys} (h : Announced v xs) (hs : AnnouncedAll vs ys) :
      AnnouncedAll (v :: vs) (xs ++ ys)

end

mutual

/-- How many containers a value has, itself included. -/
def containers : Value → Nat
  | .array xs => 1 + containersAll xs
  | .map kvs => 1 + containersPairs kvs
  | _ => 0

def containersAll : List Value → Nat
  | [] => 0
  | v :: vs => containers v + containersAll vs

def containersPairs : List (Value × Value) → Nat
  | [] => 0
  | (k, v) :: kvs => containers k + (containers v + containersPairs kvs)

end

/-- The containers in a map are those in its keys and values. -/
theorem containersPairs_eq (kvs : List (Value × Value)) :
    containersPairs kvs = containersAll (flat kvs) := by
  induction kvs with
  | nil => simp [flat, containersPairs, containersAll]
  | cons kv kvs ih => obtain ⟨k, v⟩ := kv; simp [flat, containersPairs, containersAll, ih]

mutual

/-- A replay becomes such a sequence when the sizes are put in and the closes are left out. -/
theorem Replays.announced : ∀ {v : Value} {calls : List Call}, Replays v calls →
    ∃ calls', Announced v calls'
  | _, _, .leaf h => ⟨_, .leaf h⟩
  | _, _, .array _ h => by
    obtain ⟨calls', h'⟩ := ReplaysAll.announced h
    exact ⟨_, .array h'⟩
  | _, _, .map _ h => by
    obtain ⟨calls', h'⟩ := ReplaysAll.announced h
    exact ⟨_, .map h'⟩

/-- A value that can be replayed can be announced. -/
theorem ReplaysAll.announced : ∀ {vs : List Value} {calls : List Call}, ReplaysAll vs calls →
    ∃ calls', AnnouncedAll vs calls'
  | _, _, .nil => ⟨_, .nil⟩
  | _, _, .cons h hs => by
    obtain ⟨xs, hx⟩ := Replays.announced h
    obtain ⟨ys, hy⟩ := ReplaysAll.announced hs
    exact ⟨_, .cons hx hy⟩

end

/-! ## §2 — what the calls write. -/

section Output

variable [Msgpuck]

/-- The bytes a call adds in the simple mode. -/
def Call.output (c : Call) : Bytes :=
  match c.leafValue with
  | some v => encode v
  | none => c.openingBytes .simple

/-- How many entries a call pushes. -/
def Call.pushes (c : Call) : Nat :=
  match c.opens with
  | some _ => 1
  | none => 0

omit [Msgpuck] in
/-- A leaf pushes nothing. -/
theorem Call.leaf_pushes {c : Call} {v : Value} (h : c.leafValue = some v) : c.pushes = 0 := by
  cases c <;> first | rfl | exact absurd h (by simp [Call.leafValue])

mutual

/-- The calls that emit a value write its encoding, and push an entry for every container of it. -/
theorem Announced.output : ∀ {v : Value} {calls : List Call}, Announced v calls → v.Fits →
    (∀ c ∈ calls, c.Adds) ∧ calls.flatMap Call.output = encode v ∧
      (calls.map Call.pushes).sum = containers v
  | v, _, @Announced.leaf c _ h, _ => by
    refine ⟨?_, ?_, ?_⟩
    · intro c' hc'
      rw [List.mem_singleton.mp hc']
      exact .inl (by rw [h]; simp)
    · simp [Call.output, h]
    · -- what a single call emits has no containers
      have hd := (Call.leafValue_fits h).2
      have hzero : containers v = 0 := by
        cases v <;> first | rfl | (simp only [depth] at hd; omega)
      simp [Call.leaf_pushes h, hzero]
  | _, _, @Announced.array xs calls h, hfits => by
    obtain ⟨hadds, hout, hpush⟩ := AnnouncedAll.output h hfits.2
    refine ⟨?_, ?_, ?_⟩
    · intro c hc
      rcases List.mem_cons.mp hc with rfl | hc
      · exact .inr (by simp [Call.opens])
      · exact hadds c hc
    · have hhead : (Call.addArray (UInt32.ofNat xs.length)).output = arrayForm.min xs.length := by
        simp only [Call.output, Call.leafValue, Call.openingBytes, mpEncodeArray_eq]
        rw [UInt32.toNat_ofNat_of_lt' hfits.1]
      rw [List.flatMap_cons, hout, hhead]
      rfl
    · rw [List.map_cons, List.sum_cons, hpush]
      rfl
  | _, _, @Announced.map kvs calls h, hfits => by
    obtain ⟨hadds, hout, hpush⟩ := AnnouncedAll.output h ((fitsPairs_iff kvs).mp hfits.2)
    refine ⟨?_, ?_, ?_⟩
    · intro c hc
      rcases List.mem_cons.mp hc with rfl | hc
      · exact .inr (by simp [Call.opens])
      · exact hadds c hc
    · have hhead : (Call.addMap (UInt32.ofNat kvs.length)).output = mapForm.min kvs.length := by
        simp only [Call.output, Call.leafValue, Call.openingBytes, mpEncodeMap_eq]
        rw [UInt32.toNat_ofNat_of_lt' hfits.1]
      rw [List.flatMap_cons, hout, hhead, ← encodePairsWith_eq]
      rfl
    · rw [List.map_cons, List.sum_cons, hpush, ← containersPairs_eq]
      rfl

/-- **What the calls write, and how often they push.** -/
theorem AnnouncedAll.output : ∀ {vs : List Value} {calls : List Call}, AnnouncedAll vs calls →
    FitsAll vs → (∀ c ∈ calls, c.Adds) ∧ calls.flatMap Call.output = encodeAllWith packed vs ∧
      (calls.map Call.pushes).sum = containersAll vs
  | _, _, .nil, _ => ⟨by simp, rfl, rfl⟩
  | _, _, .cons h hs, hfits => by
    obtain ⟨hadds, hout, hpush⟩ := Announced.output h hfits.1
    obtain ⟨hadds', hout', hpush'⟩ := AnnouncedAll.output hs hfits.2
    refine ⟨?_, ?_, ?_⟩
    · intro c hc
      rcases List.mem_append.mp hc with hc | hc
      · exact hadds c hc
      · exact hadds' c hc
    · rw [List.flatMap_append, hout, hout']
      rfl
    · rw [List.map_append, List.sum_append, hpush, hpush']
      rfl

end

end Output

/-! ## §3 — runs.

Two numbers are followed, bytes and pushes; the second is what the stack has room for 128 of. -/

section Runs

variable [Msgpuck]

/-- An object of the simple mode, in order. -/
structure Obj.Plain (o : Obj) : Prop where
  wf : o.WF
  sane : o.Sane
  simple : o.type = .simple

/-- **A call of the simple mode** writes its bytes and pushes its entry, or is refused because 128
entries have been pushed. -/
theorem Call.exec_simple {A : ObjAllocator} (hA : A.Succeeds) {o : Obj} (ho : o.Plain) {c : Call}
    (hc : c.Adds) :
    (o.stackSize + c.pushes ≤ 128 ∧ ∃ rv o', c.exec A o = some (rv, o') ∧ rv ≠ -1 ∧ o'.Plain ∧
      o'.bytes = o.bytes ++ c.output ∧ o'.stackSize = o.stackSize + c.pushes) ∨
    (128 < o.stackSize + c.pushes ∧ ∃ o', c.exec A o = some (-1, o')) := by
  have hle := ho.sane.stacked.size_le
  have halloc := ho.sane.alloc
  simp only [List.mem_cons, List.not_mem_nil, or_false] at halloc
  cases hv : c.leafValue with
  | some v =>
    obtain ⟨rv, o', hexec, hrv, hwf, htype, hbuild⟩ := Call.exec_leaf_yields hA ho.wf hv
    have hstack : o'.stackSize = o.stackSize := by
      rw [← hwf.frames_length, show o'.frames = _ from congrArg Build.frames hbuild,
        (countChild_wf ho.wf).frames_length, countChild_stackSize]
    refine .inl ⟨?_, rv, o', hexec, hrv, ?_, ?_, ?_⟩
    · rw [Call.leaf_pushes hv]
      omega
    · exact ⟨hwf, Call.exec_sane ho.sane hexec, by rw [htype, ho.simple]⟩
    · rw [show o'.bytes = _ from congrArg Build.bytes hbuild, Call.output, hv]
    · rw [Call.leaf_pushes hv, hstack, Nat.add_zero]
  | none =>
    obtain ⟨kind, hk⟩ : ∃ kind, c.opens = some kind := by
      rcases hc with h | h
      · exact absurd hv h
      · exact Option.ne_none_iff_exists'.mp h
    have hone : c.pushes = 1 := by rw [Call.pushes, hk]
    have hout : c.output = c.openingBytes .simple := by rw [Call.output, hv]
    rcases Call.exec_opens A ho.sane.stacked hk with ⟨hexec, hfull, hwhy⟩ |
      ⟨stack, alloc, hroom, hexec⟩
    · -- the stack cannot grow: there is memory, so it has its 128 entries
      refine .inr ⟨?_, _, hexec⟩
      rcases hwhy with h128 | hno
      · omega
      · obtain ⟨st, hst⟩ := hA.2 (2 * o.stackAlloc)
        rw [hno] at hst
        exact absurd hst (by simp)
    · -- a container: an entry, then its opening bytes
      have hpush := hroom.sane ho.sane.countChild kind
      have hbuf : ((countChild o).push stack alloc kind).s.sb.WF := by
        show (countChild o).s.sb.WF
        rw [countChild_s]
        exact ho.wf.buf
      obtain ⟨rv, o', hw, hrv, hwf, htype, hbuild⟩ :=
        write_yields hA (hpush.wf hbuf) (Call.openingBytes_pos hk o.type)
      rw [← hexec] at hw
      have hstack : o'.stackSize = o.stackSize + 1 := by
        rw [← hwf.frames_length, show o'.frames = _ from congrArg Build.frames hbuild,
          (hpush.wf hbuf).frames_length]
        show (countChild o).stackSize + 1 = _
        rw [countChild_stackSize]
      have hsane := Call.exec_sane ho.sane hw
      refine .inl ⟨?_, rv, o', hw, hrv, ⟨hwf, hsane, ?_⟩, ?_, ?_⟩
      · have hle' := hsane.stacked.size_le
        have halloc' := hsane.alloc
        simp only [List.mem_cons, List.not_mem_nil, or_false] at halloc'
        omega
      · rw [htype]
        exact (countChild_type o).trans ho.simple
      · rw [show o'.bytes = _ from congrArg Build.bytes hbuild, hout, ho.simple]
        show (countChild o).bytes ++ _ = _
        rw [countChild_bytes]
      · rw [hstack, hone]

/-- A run of the simple mode succeeds, and has then written the bytes of its calls, exactly if its
containers fit the stack. -/
theorem runCalls_simple {calls : List (ObjAllocator × Call)} (hA : ∀ p ∈ calls, p.1.Succeeds)
    (hadds : ∀ p ∈ calls, p.2.Adds) {o : Obj} (ho : o.Plain) (hsize : o.stackSize ≤ 128) :
    (o.stackSize + (calls.map fun p => p.2.pushes).sum ≤ 128 →
      ∃ rvs o', runCalls calls o = some (rvs, o') ∧ -1 ∉ rvs ∧
        o'.bytes = o.bytes ++ calls.flatMap fun p => p.2.output) ∧
    (128 < o.stackSize + (calls.map fun p => p.2.pushes).sum →
      ∀ rvs o', runCalls calls o = some (rvs, o') → -1 ∈ rvs) := by
  induction calls generalizing o with
  | nil =>
    refine ⟨fun _ => ⟨[], o, rfl, by simp, by simp⟩, ?_⟩
    intro hlt
    simp only [List.map_nil, List.sum_nil] at hlt
    omega
  | cons p calls ih =>
    obtain ⟨A, c⟩ := p
    have hrest := @ih (fun q hq => hA q (by simp [hq])) (fun q hq => hadds q (by simp [hq]))
    simp only [List.map_cons, List.sum_cons, List.flatMap_cons]
    rcases Call.exec_simple (hA (A, c) (by simp)) ho (hadds (A, c) (by simp)) with
      ⟨hfit, rv, o₁, hexec, hrv, ho₁, hbytes, hstack⟩ | ⟨hover, o₁, hexec⟩
    · have hcase := hrest ho₁ (by omega)
      rw [hstack, Nat.add_assoc] at hcase
      refine ⟨?_, ?_⟩
      · intro hle
        obtain ⟨rvs, o', hrun, hrvs, hbytes'⟩ := hcase.1 hle
        refine ⟨rv :: rvs, o', ?_, ?_, ?_⟩
        · simp only [runCalls, hexec, bind, Option.bind_some, hrun, pure]
        · rw [List.mem_cons, not_or]
          exact ⟨fun h => hrv h.symm, hrvs⟩
        · rw [hbytes', hbytes, List.append_assoc]
      · intro hlt rvs o' hrun
        simp only [runCalls, hexec, bind, Option.bind_some, Option.bind_eq_some_iff] at hrun
        obtain ⟨⟨rvs', o''⟩, hrun', hend⟩ := hrun
        obtain ⟨rfl, -⟩ := Prod.mk.inj (Option.some.inj hend)
        exact List.mem_cons_of_mem _ (hcase.2 hlt _ _ hrun')
    · -- the first call is refused, whatever the others do
      have hover : 128 < o.stackSize + c.pushes := hover
      refine ⟨fun hle => by omega, ?_⟩
      intro _ rvs o' hrun
      simp only [runCalls, hexec, bind, Option.bind_some, Option.bind_eq_some_iff] at hrun
      obtain ⟨⟨rvs', o''⟩, -, hend⟩ := hrun
      obtain ⟨rfl, -⟩ := Prod.mk.inj (Option.some.inj hend)
      exact List.mem_cons_self

/-- A blank object is one of the simple mode, with nothing pushed. -/
theorem Blank.plain {o : Obj} (h : Blank o) : o.Plain ∧ o.bytes = [] ∧ o.stackSize = 0 := by
  have hsame : tntObjectType o .simple = (0, o) := by
    cases h <;> rfl
  obtain ⟨o', htype, hwf, hsane, hmode, hb⟩ := h.setType .simple
  rw [hsame] at htype
  obtain ⟨-, rfl⟩ := Prod.mk.inj htype
  refine ⟨⟨hwf, hsane, hmode⟩, congrArg Build.bytes hb, ?_⟩
  rw [← hwf.frames_length, show o.frames = [] from congrArg Build.frames hb]
  rfl

/-- **What the simple mode can build**: exactly the values with at most 128 containers.  In this
mode every container is announced with its size and needs no closing, so its entry on the stack
stays.  It is the number of containers that is bounded, therefore, however flat the value is. -/
theorem tntObject_simple_iff {t : Value} (hfits : t.Fits) (hplain : Plain t) :
    (∃ calls, Announced t calls) ∧
      ∀ (o : Obj) (calls : List (ObjAllocator × Call)), Blank o →
        Announced t (calls.map Prod.snd) → (∀ p ∈ calls, p.1.Succeeds) →
          ((∃ rvs o', runCalls calls o = some (rvs, o') ∧ -1 ∉ rvs ∧ o'.bytes = encode t) ↔
            containers t ≤ 128) := by
  obtain ⟨calls₀, hreplay⟩ := exists_replays t hfits hplain
  refine ⟨hreplay.announced, ?_⟩
  intro o calls ho hann hA
  obtain ⟨hadds, hout, hpush⟩ := hann.output hfits
  obtain ⟨hplain, hbytes, hstack⟩ := ho.plain
  have hrun := runCalls_simple hA (fun p hp => hadds _ (List.mem_map_of_mem hp)) hplain (by omega)
  rw [List.map_map] at hpush
  rw [List.flatMap_map] at hout
  rw [hstack, Nat.zero_add, show (calls.map fun p => p.2.pushes).sum = containers t from hpush] at hrun
  constructor
  · rintro ⟨rvs, o', hexec, hrvs, -⟩
    by_contra hmany
    exact hrvs (hrun.2 (by omega) _ _ hexec)
  · intro hfew
    obtain ⟨rvs, o', hexec, hrvs, hend⟩ := hrun.1 hfew
    refine ⟨rvs, o', hexec, hrvs, ?_⟩
    rw [hend, hbytes, hout, List.nil_append]

end Runs

/-- `[[], []]`, three containers. -/
theorem tntObject_simple_three :
    ∃ rvs o', @runCalls Msgpuck.reference
        ([.addArray 2, .addArray 0, .addArray 0].map fun c => (zeroingObj, c))
        (tntObject zeroStack) = some (rvs, o') ∧ -1 ∉ rvs ∧
      o'.bytes = encode (.array [.array [], .array []]) := by
  let _ := Msgpuck.reference
  have hempty : Announced (.array []) [.addArray 0] := .array .nil
  refine ((tntObject_simple_iff (t := .array [.array [], .array []]) ?_ ?_).2 _ _ (.new rfl) ?_
    ?_).mpr (by decide)
  · simp [Value.Fits, FitsAll]
  · simp [Plain, PlainAll]
  · exact .array (.cons hempty (.cons hempty .nil))
  · intro p hp
    obtain ⟨c, -, rfl⟩ := List.mem_map.mp hp
    exact zeroingObj_succeeds

/-- An array of 128 empty arrays: the last of them is refused. -/
theorem tntObject_simple_refused :
    let t : Value := .array (List.replicate 128 (.array []))
    let calls : List Call := .addArray 128 :: List.replicate 128 (.addArray 0)
    t.Fits ∧ Plain t ∧ Announced t calls ∧ containers t = 129 ∧
      (@runCalls Msgpuck.reference (calls.map fun c => (zeroingObj, c)) (tntObject zeroStack)).map
        Prod.fst = some (3 :: (List.replicate 127 1 ++ [-1])) := by
  intro t calls
  have hempty : Announced (.array []) [.addArray 0] := .array .nil
  have hall : ∀ n, AnnouncedAll (List.replicate n (.array [])) (List.replicate n (.addArray 0)) := by
    intro n
    induction n with
    | zero => exact .nil
    | succ n ih => exact .cons hempty ih
  refine ⟨?_, ?_, .array (hall 128), by decide +kernel, by decide +kernel⟩
  · refine ⟨by rw [List.length_replicate]; decide, ?_⟩
    simp [List.replicate, FitsAll, Value.Fits]
  · simp [t, Plain, List.replicate, PlainAll]

end TarantoolC.Object
