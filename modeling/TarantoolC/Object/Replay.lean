/-
# TarantoolC.Object.Replay — building a value call by call.

A value is replayed on an object in pre-order: one `tnt_object_add_*` for a leaf, `add_array` or
`add_map` before the children and `container_close` after them.  Which adder writes a leaf is left
open (`tnt_object_add_int` also writes non-negative numbers, a string may go through
`tnt_object_add_strz`), and so is the size passed to `add_array` and `add_map`, which the two modes
that count for themselves ignore.

So there are many replays of one value, and `tntObject_replay` is about all of them, in both modes
that count: no call fails, every container is closed, and the buffer has the canonical encoding
(packed mode) or the one with five-byte headers (sparse mode).
-/
import TarantoolC.MsgPack.Decode
import TarantoolC.Object.Correct

namespace TarantoolC.Object

open MsgPack Msgpuck

/-! ## §1 — replays. -/

mutual

/-- `Replays v calls`: the calls emit `v` in pre-order. -/
inductive Replays : Value → List Call → Prop
  | leaf {c v} (h : c.leafValue = some v) : Replays v [c]
  | array {xs calls} (size : UInt32) (h : ReplaysAll xs calls) :
      Replays (.array xs) (.addArray size :: (calls ++ [.containerClose]))
  | map {kvs calls} (size : UInt32) (h : ReplaysAll (flat kvs) calls) :
      Replays (.map kvs) (.addMap size :: (calls ++ [.containerClose]))

inductive ReplaysAll : List Value → List Call → Prop
  | nil : ReplaysAll [] []
  | cons {v vs xs ys} (h : Replays v xs) (hs : ReplaysAll vs ys) : ReplaysAll (v :: vs) (xs ++ ys)

end

mutual

/-- Values the object API has an adder for: no extension types. -/
def Plain : Value → Prop
  | .ext _ _ => False
  | .array xs => PlainAll xs
  | .map kvs => PlainPairs kvs
  | _ => True

def PlainAll : List Value → Prop
  | [] => True
  | v :: vs => Plain v ∧ PlainAll vs

def PlainPairs : List (Value × Value) → Prop
  | [] => True
  | (k, v) :: kvs => Plain k ∧ Plain v ∧ PlainPairs kvs

end

mutual

/-- Every value in range can be replayed. -/
theorem exists_replays : ∀ v : Value, v.Fits → Plain v → ∃ calls, Replays v calls
  | .nil, _, _ => ⟨_, .leaf (c := .addNil) rfl⟩
  | .bool b, _, _ => by
    refine ⟨_, .leaf (c := .addBool (if b then 1 else 0)) ?_⟩
    cases b <;> rfl
  | .uint n, h, _ => by
    refine ⟨_, .leaf (c := .addUint (UInt64.ofNat n)) ?_⟩
    rw [Call.leafValue, UInt64.toNat_ofNat_of_lt' h]
  | .int z, h, _ => by
    refine ⟨_, .leaf (c := .addInt (Int64.ofInt z)) ?_⟩
    obtain ⟨hlo, hneg⟩ := h
    rw [Call.leafValue, Int64.toInt_ofInt_of_le hlo (by omega), if_pos hneg]
  | .float bits, h, _ => by
    refine ⟨_, .leaf (c := .addFloat (UInt32.ofNat bits)) ?_⟩
    rw [Call.leafValue, UInt32.toNat_ofNat_of_lt' h]
  | .double bits, h, _ => by
    refine ⟨_, .leaf (c := .addDouble (UInt64.ofNat bits)) ?_⟩
    rw [Call.leafValue, UInt64.toNat_ofNat_of_lt' h]
  | .str s, h, _ => ⟨_, .leaf (c := .addStr ⟨s, h⟩) rfl⟩
  | .bin s, h, _ => ⟨_, .leaf (c := .addBin ⟨s, h⟩) rfl⟩
  | .ext _ _, _, hp => absurd hp (by simp [Plain])
  | .array xs, h, hp => by
    obtain ⟨calls, hc⟩ := exists_replaysAll xs h.2 hp
    exact ⟨_, .array 0 hc⟩
  | .map kvs, h, hp => by
    obtain ⟨calls, hc⟩ := exists_replaysPairs kvs h.2 hp
    exact ⟨_, .map 0 hc⟩

/-- Sequences can be replayed, ... -/
theorem exists_replaysAll : ∀ vs : List Value, FitsAll vs → PlainAll vs →
    ∃ calls, ReplaysAll vs calls
  | [], _, _ => ⟨_, .nil⟩
  | v :: vs, h, hp => by
    obtain ⟨xs, hx⟩ := exists_replays v h.1 hp.1
    obtain ⟨ys, hy⟩ := exists_replaysAll vs h.2 hp.2
    exact ⟨_, .cons hx hy⟩

/-- ... and maps. -/
theorem exists_replaysPairs : ∀ kvs : List (Value × Value), FitsPairs kvs → PlainPairs kvs →
    ∃ calls, ReplaysAll (flat kvs) calls
  | [], _, _ => ⟨_, .nil⟩
  | (k, v) :: kvs, h, hp => by
    obtain ⟨xs, hx⟩ := exists_replays k h.1 hp.1
    obtain ⟨ys, hy⟩ := exists_replays v h.2.1 hp.2.1
    obtain ⟨zs, hz⟩ := exists_replaysPairs kvs h.2.2 hp.2.2
    exact ⟨_, .cons hx (.cons hy hz)⟩

end

mutual

/-- The calls of a replay perform the steps that emit the value. -/
theorem Replays.emits : ∀ {v : Value} {calls : List Call}, Replays v calls →
    ∃ ops, Emits v ops ∧ List.Forall₂ Call.Performs calls ops
  | _, _, .leaf h => ⟨_, .leaf (Call.leafValue_fits h).2, .cons (.leaf h) .nil⟩
  | _, _, .array size h => by
    obtain ⟨ops, he, hp⟩ := ReplaysAll.emits h
    exact ⟨_, .array he, .cons .array (List.rel_append hp (.cons .close .nil))⟩
  | _, _, .map size h => by
    obtain ⟨ops, he, hp⟩ := ReplaysAll.emits h
    exact ⟨_, .map he, .cons .map (List.rel_append hp (.cons .close .nil))⟩

/-- A replay of a sequence makes the steps of its values. -/
theorem ReplaysAll.emits : ∀ {vs : List Value} {calls : List Call}, ReplaysAll vs calls →
    ∃ ops, EmitsAll vs ops ∧ List.Forall₂ Call.Performs calls ops
  | _, _, .nil => ⟨_, .nil, .nil⟩
  | _, _, .cons h hs => by
    obtain ⟨xs, hx, hpx⟩ := Replays.emits h
    obtain ⟨ys, hy, hpy⟩ := ReplaysAll.emits hs
    exact ⟨_, .cons hx hy, List.rel_append hpx hpy⟩

end

/-! ## §2 — runs. -/

section Runs

variable [Msgpuck]

/-- **A run of calls is a run of the ideal builder.**  One call is one step, so this is an induction
on the calls.  Nothing is said of values here: any calls that the ideal builder can follow will do.
-/
theorem runCalls_yields {S : Style} {calls : List (ObjAllocator × Call)} {ops : List BuildOp}
    (hp : List.Forall₂ (fun p op => p.2.Performs op) calls ops)
    (hA : ∀ p ∈ calls, p.1.Succeeds) {o : Obj} (ho : o.WF) (hmode : o.type.style = some S)
    {b : Build} (hrun : Build.run S 8 ops o.build = some b) :
    ∃ rvs o', runCalls calls o = some (rvs, o') ∧ -1 ∉ rvs ∧ o'.WF ∧ o'.build = b := by
  induction hp generalizing o with
  | nil =>
    obtain rfl := Option.some.inj hrun
    exact ⟨[], o, rfl, by simp, ho, rfl⟩
  | @cons p op calls ops hop _ ih =>
    simp only [Build.run, bind, Option.bind_eq_some_iff] at hrun
    obtain ⟨b₁, hstep, hrest⟩ := hrun
    obtain ⟨rv, o₁, hexec, hrv, hwf₁, htype, hb₁⟩ :=
      Call.exec_yields (hA p (by simp)) ho hmode hop hstep
    rw [← hb₁] at hrest
    obtain ⟨rvs, o', hrest', hrvs, hwf', hb'⟩ :=
      ih (fun q hq => hA q (by simp [hq])) hwf₁ (by rw [htype]; exact hmode) hrest
    refine ⟨rv :: rvs, o', ?_, ?_, hwf', hb'⟩
    · obtain ⟨A, c⟩ := p
      simp only [runCalls, hexec, bind, Option.bind_some, hrest', pure]
    · rw [List.mem_cons, not_or]
      exact ⟨fun h => hrv h.symm, hrvs⟩

/-- An object before the first value: newly made, or reset after any calls. -/
inductive Clean : Obj → Prop
  | new {stack : List SboStack} (h : stack.length = 8) : Clean (tntObject stack)
  | reset {o : Obj} (h : Reachable o) : Clean (tntObjectReset o)

/-- A clean object takes a mode, and shows the empty builder. -/
theorem Clean.setType {o : Obj} (h : Clean o) (mode : SboType) :
    ∃ o', tntObjectType o mode = (0, o') ∧ o'.WF ∧ o'.type = mode ∧ o'.build = ⟨[], []⟩ := by
  cases h with
  | @new stack hs =>
    have hwf := tntObject_wf hs
    exact ⟨_, rfl, ⟨hwf.buf, hwf.stack_length, hwf.alloc_ge, hwf.size_le⟩, rfl, rfl⟩
  | @reset o hr =>
    have hwf := hr.wf
    refine ⟨{ tntObjectReset o with type := mode }, rfl,
      ⟨⟨hwf.buf.owned, hwf.buf.block, Nat.zero_le _⟩, hwf.stack_length, hwf.alloc_ge,
        Nat.zero_le _⟩, rfl, ?_⟩
    have hbytes : (tntObjectReset o).bytes = [] := by
      unfold Obj.bytes StreamBuf.bytes tntObjectReset
      simp only
      split
      · rw [List.take_zero]
      · rfl
    show Build.mk (tntObjectReset o).bytes [] = _
    rw [hbytes]

/-- **The builder is correct.**  A value in range of depth at most 8 can be replayed, and replaying
it in a mode that counts children never returns -1, closes every container, and leaves the encoding
of the value in the mode's style, which decodes to the value.  The modes differ in their headers
alone: the sparse one writes each as wide as possible and leaves it so, the packed one writes the
narrowest and moves what is behind it.  `Builder` has the induction over the value, once for both;
the depth of 8 is that of the first stack array. -/
theorem tntObject_replay {t : Value} (hfits : t.Fits) (hplain : Plain t) (hnarrow : Narrow t)
    (hdepth : depth t ≤ 8) :
    (∃ calls, Replays t calls) ∧
      ∀ (o : Obj) (mode : SboType) (S : Style) (A : ObjAllocator)
        (calls : List (ObjAllocator × Call)), Clean o → mode.style = some S →
          Replays t (calls.map Prod.snd) → (∀ p ∈ calls, p.1.Succeeds) →
            ∃ rvs o', runCalls ((A, .setType mode) :: calls) o = some (rvs, o') ∧ -1 ∉ rvs ∧
              o'.stackSize = 0 ∧ o'.bytes = encodeWith S t ∧
              decodeFront o'.bytes = some (t, []) := by
  refine ⟨exists_replays t hfits hplain, ?_⟩
  intro o mode S A calls ho hmode hreplay hA
  obtain ⟨o₁, htype, hwf₁, hmode₁, hb₁⟩ := ho.setType mode
  obtain ⟨ops, hemits, hp⟩ := hreplay.emits
  -- the ideal builder emits the value, and the object follows it
  have hrun : Build.run S 8 ops o₁.build = some ⟨encodeWith S t, []⟩ := by
    rw [hb₁]
    exact Build.run_emits S 8 hemits hnarrow (b := ⟨[], []⟩) rfl (by simpa using hdepth)
  rw [List.forall₂_map_left_iff] at hp
  obtain ⟨rvs, o', hrest, hrvs, hwf', hb'⟩ :=
    runCalls_yields hp hA hwf₁ (by rw [hmode₁]; exact hmode) hrun
  have hbytes : o'.bytes = encodeWith S t := congrArg Build.bytes hb'
  have hframes : o'.frames = [] := congrArg Build.frames hb'
  have hS : S.Sound := by
    cases mode with
    | simple => exact absurd hmode (by simp [SboType.style])
    | sparse => obtain rfl := Option.some.inj hmode; exact sparse_sound
    | packed => obtain rfl := Option.some.inj hmode; exact packed_sound
  refine ⟨0 :: rvs, o', ?_, ?_, ?_, hbytes, ?_⟩
  · simp only [runCalls, Call.exec, htype, bind, Option.bind_some, hrest, pure]
  · simpa using hrvs
  · rw [← hwf'.frames_length, hframes]
    rfl
  · rw [hbytes]
    simpa using decodeFront_append (encodes_encodeWith hS t hfits) []

end Runs

/-- An allocator for the evaluations below. -/
def zeroingObj : ObjAllocator where
  toAllocator := Allocator.zeroing
  newStack n := some (List.replicate n ⟨0, 0, .array⟩)
  newStack_length n st h := by
    obtain rfl := Option.some.inj h
    exact List.length_replicate

/-- An allocator that has memory, for concrete runs. -/
theorem zeroingObj_succeeds : zeroingObj.Succeeds :=
  ⟨Allocator.zeroing_succeeds, fun _ => ⟨_, rfl⟩⟩

/-- `{1: [nil × 16]}` on a new object in packed mode: the inner header is widened to three bytes
after the outer one was placed. -/
theorem tntObject_replay_sixteen :
    let calls := [.addMap 0, .addUint 1, .addArray 0] ++
      (List.replicate 16 Call.addNil ++ [.containerClose, .containerClose])
    ∃ rvs o', @runCalls Msgpuck.reference
        ((zeroingObj, .setType .packed) :: calls.map fun c => (zeroingObj, c))
        (tntObject (List.replicate 8 ⟨0, 0, .array⟩)) = some (rvs, o') ∧ -1 ∉ rvs ∧
      o'.stackSize = 0 ∧
      o'.bytes = [0x81, 0x01, 0xdc, 0x00, 0x10] ++ List.replicate 16 0xc0 ∧
      decodeFront o'.bytes = some (.map [(.uint 1, .array (List.replicate 16 .nil))], []) := by
  let _ := Msgpuck.reference
  have hnils : ReplaysAll (List.replicate 16 .nil) (List.replicate 16 .addNil) := by
    repeat' first | exact .nil | refine @ReplaysAll.cons _ _ [.addNil] _ (.leaf rfl) ?_
  have hone : Replays (.uint 1) [.addUint 1] := .leaf rfl
  have hreplay := @Replays.map [(.uint 1, .array (List.replicate 16 .nil))] _ 0
    (.cons hone (.cons (.array 0 hnils) .nil))
  refine (tntObject_replay (t := .map [(.uint 1, .array (List.replicate 16 .nil))])
    ?_ ?_ ?_ ?_).2 _ .packed packed zeroingObj _ (.new rfl) rfl ?_ ?_
  · simp [Value.Fits, FitsPairs, FitsAll, List.replicate]
  · simp [Plain, PlainPairs, PlainAll, List.replicate]
  · simp [Narrow, NarrowPairs, NarrowAll, List.replicate]
  · decide
  · rw [List.map_map]
    exact hreplay
  · intro p hp
    obtain ⟨c, -, rfl⟩ := List.mem_map.mp hp
    exact zeroingObj_succeeds

end TarantoolC.Object
