/-
# TarantoolC.Object.Builder — the IDEAL builder: what `tnt_object` is for.

A MessagePack value is emitted in pre-order: a container is opened with a placeholder header, its
children follow, and closing it replaces the placeholder by the header for the number of children
that were added.  The ideal builder keeps the bytes and the stack of open containers (innermost
first) and has no memory, no allocation and no machine integers.  It is PARTIAL: a step is `none`
when the program makes no promise about it — too many open containers, a count that leaves 32 bits,
an odd number of items in a map, nothing to close.

`Build.run_emits` is the whole content: replaying a value in pre-order appends exactly its
encoding, at every depth, whatever is open around it.  The program's buffer is compared with this
builder in `TarantoolC.Object.Correct`.

What is left out of the promise is left out for the program as well: with no room for a container,
or with a counter that would leave 32 bits, the program does something, but not what anyone builds
objects for.  Those cases are the subject of other modules (`Object.Nesting`, `Object.Grammar`,
`Object.Reject`), and there the builder is refined to one that counts as the program does
(`Object.Nest`).

`Emits` is the pre-order of a value as a relation between values and lists of steps, so that the
induction of `Build.run_emits` is on its derivation.
-/
import TarantoolC.MsgPack.Encode

namespace TarantoolC.Object

open MsgPack

/-! ## §1 — states and steps. -/

/-- The two kinds of container. -/
inductive Kind where
  | array | map
  deriving Repr, DecidableEq

/-- The form of a container header in a style. -/
def Kind.form (S : Style) : Kind → Form
  | .array => S.array
  | .map => S.map

/-- What a header announces for a number of direct children: a map counts pairs. -/
def Kind.announced : Kind → Nat → Nat
  | .array, n => n
  | .map, n => n / 2

/-- An open container: where its header starts, and how many children it has so far. -/
structure Frame where
  offset : Nat
  count : Nat
  kind : Kind
  deriving Repr, DecidableEq

/-- The ideal builder's state. -/
structure Build where
  bytes : Bytes
  frames : List Frame
  deriving Repr, DecidableEq

/-- One call, as far as the bytes are concerned. -/
inductive BuildOp where
  | leaf (bs : Bytes)
  | opening (k : Kind)
  | closing
  deriving Repr, DecidableEq

/-- Count one more child in the innermost open container. -/
def bump : List Frame → Option (List Frame)
  | [] => some []
  | f :: fs => if f.count + 1 < 2 ^ 32 then some ({ f with count := f.count + 1 } :: fs) else none

/-- The header a style writes before the number of children is known. -/
def Kind.placeholder (S : Style) (k : Kind) : Bytes := (k.form S).min 0

/-- The header for `n` direct children. -/
def Kind.header (S : Style) (k : Kind) (n : Nat) : Bytes := (k.form S).min (k.announced n)

/-- Replace the placeholder of `f` by its final header; everything behind it moves along. -/
def Frame.patch (S : Style) (f : Frame) (bytes : Bytes) : Bytes :=
  bytes.take f.offset ++
    (f.kind.header S f.count ++ bytes.drop (f.offset + (f.kind.placeholder S).length))

/-- A step of the ideal builder with room for `cap` open containers. -/
def Build.step (S : Style) (cap : Nat) (b : Build) : BuildOp → Option Build
  | .leaf bs => do
    let fs ← bump b.frames
    return ⟨b.bytes ++ bs, fs⟩
  | .opening k => do
    let fs ← bump b.frames
    if fs.length < cap then
      return ⟨b.bytes ++ k.placeholder S, ⟨b.bytes.length, 0, k⟩ :: fs⟩
    else none
  | .closing =>
    match b.frames with
    | [] => none
    | f :: fs =>
      if f.kind = .map ∧ f.count % 2 = 1 then none
      else if f.offset + (f.kind.placeholder S).length ≤ b.bytes.length then
        some ⟨f.patch S b.bytes, fs⟩
      else none

/-- When a container can be closed. -/
theorem Build.step_closing {S : Style} {cap : Nat} {b b' : Build}
    (h : b.step S cap .closing = some b') :
    ∃ f fs, b.frames = f :: fs ∧ ¬ (f.kind = .map ∧ f.count % 2 = 1) ∧
      f.offset + (f.kind.placeholder S).length ≤ b.bytes.length ∧ b' = ⟨f.patch S b.bytes, fs⟩ := by
  simp only [Build.step] at h
  split at h
  · exact absurd h (by simp)
  next f fs hframes =>
  split at h
  · exact absurd h (by simp)
  next hodd =>
  split at h
  · next hin => exact ⟨f, fs, hframes, hodd, hin, (Option.some.inj h).symm⟩
  · exact absurd h (by simp)

/-- A run of the ideal builder. -/
def Build.run (S : Style) (cap : Nat) : List BuildOp → Build → Option Build
  | [], b => some b
  | op :: ops, b => do
    let b ← b.step S cap op
    run S cap ops b

/-- Steps one after the other. -/
theorem Build.run_append (S : Style) (cap : Nat) (xs ys : List BuildOp) (b : Build) :
    Build.run S cap (xs ++ ys) b = (Build.run S cap xs b).bind (Build.run S cap ys) := by
  induction xs generalizing b with
  | nil => rfl
  | cons x xs ih =>
    simp only [List.cons_append, Build.run, bind]
    cases b.step S cap x with
    | none => rfl
    | some b' => exact ih b'

/-! ## §2 — replaying a value. -/

mutual

/-- How many containers of the value are open at once while it is emitted. -/
def depth : Value → Nat
  | .array xs => 1 + depthAll xs
  | .map kvs => 1 + depthPairs kvs
  | _ => 0

def depthAll : List Value → Nat
  | [] => 0
  | v :: vs => max (depth v) (depthAll vs)

def depthPairs : List (Value × Value) → Nat
  | [] => 0
  | (k, v) :: kvs => max (depth k) (max (depth v) (depthPairs kvs))

end

mutual

/-- Every container of the value has fewer than `2^32` direct children (a map has two for each
pair). -/
def Narrow : Value → Prop
  | .array xs => xs.length < 2 ^ 32 ∧ NarrowAll xs
  | .map kvs => 2 * kvs.length < 2 ^ 32 ∧ NarrowPairs kvs
  | _ => True

def NarrowAll : List Value → Prop
  | [] => True
  | v :: vs => Narrow v ∧ NarrowAll vs

def NarrowPairs : List (Value × Value) → Prop
  | [] => True
  | (k, v) :: kvs => Narrow k ∧ Narrow v ∧ NarrowPairs kvs

end

/-- Depth, ... -/
theorem depthPairs_eq (kvs : List (Value × Value)) : depthPairs kvs = depthAll (flat kvs) := by
  induction kvs with
  | nil => simp [flat, depthPairs, depthAll]
  | cons kv kvs ih => obtain ⟨k, v⟩ := kv; simp [flat, depthPairs, depthAll, ih]

/-- ... width, ... -/
theorem narrowPairs_iff (kvs : List (Value × Value)) : NarrowPairs kvs ↔ NarrowAll (flat kvs) := by
  induction kvs with
  | nil => simp [flat, NarrowPairs, NarrowAll]
  | cons kv kvs ih => obtain ⟨k, v⟩ := kv; simp [flat, NarrowPairs, NarrowAll, ih]

/-- ... and range of a map are those of its keys and values. -/
theorem fitsPairs_iff (kvs : List (Value × Value)) : FitsPairs kvs ↔ FitsAll (flat kvs) := by
  induction kvs with
  | nil => simp [flat, FitsPairs, FitsAll]
  | cons kv kvs ih => obtain ⟨k, v⟩ := kv; simp [flat, FitsPairs, FitsAll, ih]

mutual

/-- The calls `ops` emit the value in pre-order.  A leaf is one call that writes its (minimal)
encoding; a container is opened before its children and closed after them. -/
inductive Emits : Value → List BuildOp → Prop
  | leaf {v} (h : depth v = 0) : Emits v [.leaf (encode v)]
  | array {xs ops} (h : EmitsAll xs ops) : Emits (.array xs) (.opening .array :: (ops ++ [.closing]))
  | map {kvs ops} (h : EmitsAll (flat kvs) ops) :
      Emits (.map kvs) (.opening .map :: (ops ++ [.closing]))

inductive EmitsAll : List Value → List BuildOp → Prop
  | nil : EmitsAll [] []
  | cons {v vs xs ys} (h : Emits v xs) (hs : EmitsAll vs ys) : EmitsAll (v :: vs) (xs ++ ys)

end

/-- Leaves are encoded the same in every style. -/
theorem encodeWith_leaf (S : Style) {v : Value} (h : depth v = 0) : encodeWith S v = encode v := by
  cases v <;> first | rfl | (simp only [depth] at h; omega)

/-- Closing the container opened at the end of `pre`, whose children are `body`. -/
theorem Build.close_spec (S : Style) (cap : Nat) {pre body : Bytes} {k : Kind} {n : Nat}
    {fs : List Frame} (hn : k = .map → n % 2 = 0) :
    Build.step S cap ⟨pre ++ k.placeholder S ++ body, ⟨pre.length, n, k⟩ :: fs⟩ .closing =
      some ⟨pre ++ (k.header S n ++ body), fs⟩ := by
  have hodd : ¬ (k = .map ∧ n % 2 = 1) := by
    rintro ⟨hk, hone⟩
    have := hn hk
    omega
  have hroom : pre.length + (k.placeholder S).length ≤ (pre ++ k.placeholder S ++ body).length := by
    simp
  have hpatch : Frame.patch S ⟨pre.length, n, k⟩ (pre ++ k.placeholder S ++ body) =
      pre ++ (k.header S n ++ body) := by
    unfold Frame.patch
    simp only
    rw [← List.length_append, List.drop_left, List.append_assoc pre (k.placeholder S),
      List.take_left]
  simp only [Build.step, if_neg hodd, if_pos hroom, hpatch]

/-- Opening a container, emitting its children and closing it. -/
theorem Build.run_container {S : Style} {cap : Nat} {k : Kind} {ops : List BuildOp} {b : Build}
    {fs : List Frame} {n : Nat} {body : Bytes} (hb : bump b.frames = some fs)
    (hcap : fs.length < cap) (hn : k = .map → n % 2 = 0)
    (hbody : Build.run S cap ops ⟨b.bytes ++ k.placeholder S, ⟨b.bytes.length, 0, k⟩ :: fs⟩ =
      some ⟨b.bytes ++ k.placeholder S ++ body, ⟨b.bytes.length, n, k⟩ :: fs⟩) :
    Build.run S cap (.opening k :: (ops ++ [.closing])) b =
      some ⟨b.bytes ++ (k.header S n ++ body), fs⟩ := by
  have hopen : b.step S cap (.opening k) =
      some ⟨b.bytes ++ k.placeholder S, ⟨b.bytes.length, 0, k⟩ :: fs⟩ := by
    simp only [Build.step, hb, bind, Option.bind_some, if_pos hcap, pure]
  simp only [Build.run, hopen, bind, Option.bind_some, Build.run_append, hbody,
    Build.close_spec S cap hn]

/-- Counting a child opens nothing. -/
theorem bump_length {fs fs' : List Frame} (h : bump fs = some fs') : fs'.length = fs.length := by
  cases fs with
  | nil => obtain rfl := Option.some.inj h; rfl
  | cons f fs =>
    simp only [bump] at h
    split at h
    · obtain rfl := Option.some.inj h; rfl
    · exact absurd h (by simp)

mutual

/-- **`Build.run_emits`** — emitting a value appends its encoding and counts one child.

The induction is on the derivation; for a sequence the innermost frame is explicit, and it counts
every member. -/
theorem Build.run_emits (S : Style) (cap : Nat) : ∀ {v : Value} {ops : List BuildOp}, Emits v ops →
    Narrow v → ∀ {b : Build} {fs : List Frame}, bump b.frames = some fs →
      b.frames.length + depth v ≤ cap →
        Build.run S cap ops b = some ⟨b.bytes ++ encodeWith S v, fs⟩
  | _, _, .leaf h, _, b, fs, hb, _ => by
    simp only [Build.run, Build.step, hb, bind, Option.bind_some, pure, encodeWith_leaf S h]
  | _, _, @Emits.array xs ops hxs, hn, b, fs, hb, hd => by
    have hlen := bump_length hb
    simp only [depth] at hd
    have hbody := Build.run_emitsAll S cap hxs hn.2 (b.bytes ++ Kind.placeholder S .array)
      ⟨b.bytes.length, 0, .array⟩ fs (by simpa using hn.1) (by omega)
    simp only [Nat.zero_add] at hbody
    simpa only [encodeWith, Kind.header, Kind.form, Kind.announced] using
      Build.run_container hb (by omega) (fun hk => absurd hk (by decide)) hbody
  | _, _, @Emits.map kvs ops hkvs, hn, b, fs, hb, hd => by
    have hlen := bump_length hb
    simp only [depth, depthPairs_eq] at hd
    have hbody := Build.run_emitsAll S cap hkvs ((narrowPairs_iff kvs).mp hn.2)
      (b.bytes ++ Kind.placeholder S .map) ⟨b.bytes.length, 0, .map⟩ fs
      (by simpa using hn.1) (by omega)
    simp only [Nat.zero_add, flat_length] at hbody
    have hhead : Kind.header S .map (2 * kvs.length) = S.map.min kvs.length := by
      simp [Kind.header, Kind.form, Kind.announced]
    simpa only [encodeWith, encodePairsWith_eq, hhead] using
      Build.run_container hb (by omega) (fun _ => by omega) hbody

/-- The same for a sequence, into an open container. -/
theorem Build.run_emitsAll (S : Style) (cap : Nat) : ∀ {vs : List Value} {ops : List BuildOp},
    EmitsAll vs ops → NarrowAll vs → ∀ (bytes : Bytes) (f : Frame) (fs : List Frame),
      f.count + vs.length < 2 ^ 32 → fs.length + 1 + depthAll vs ≤ cap →
        Build.run S cap ops ⟨bytes, f :: fs⟩ =
          some ⟨bytes ++ encodeAllWith S vs, { f with count := f.count + vs.length } :: fs⟩
  | _, _, .nil, _, bytes, f, fs, _, _ => by
    simp only [Build.run, encodeAllWith, List.append_nil, List.length_nil, Nat.add_zero]
  | _, _, @EmitsAll.cons v vs xs ys hv hvs, hn, bytes, f, fs, hcount, hd => by
    simp only [List.length_cons] at hcount
    simp only [depthAll] at hd
    have hbump : bump (f :: fs) = some ({ f with count := f.count + 1 } :: fs) := by
      simp only [bump, if_pos (show f.count + 1 < 2 ^ 32 by omega)]
    have hfirst := Build.run_emits S cap hv hn.1 (b := ⟨bytes, f :: fs⟩) hbump (by simp; omega)
    have hrest := Build.run_emitsAll S cap hvs hn.2 (bytes ++ encodeWith S v)
      { f with count := f.count + 1 } fs (by simp; omega) (by omega)
    rw [Build.run_append, hfirst, Option.bind_some, hrest]
    simp only [encodeAllWith, List.append_assoc, List.length_cons]
    rw [Nat.add_right_comm, Nat.add_assoc]

end

end TarantoolC.Object
