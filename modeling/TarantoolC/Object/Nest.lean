/-
# TarantoolC.Object.Nest — open containers with what has been put into them.

The builder of `TarantoolC.Object.Builder` finds a header again by its OFFSET, as the program does.
Here there are no offsets: an open container is a level that holds the bytes written into it so far,
and closing it hands its header and its contents to the level around it.  So closing a container
cannot touch any other one, whatever the depth; that is what a stack of containers is FOR.

`Nest.build` reads such a state as bytes and offsets, and `Nest.patch_top` is the connection: going
back to the offset of the innermost container and replacing the placeholder there is the same as
closing a level.  The counters are the program's, 32 bits wide.

Two directions are used.  Where the program behaves, its object is a nest read as bytes and offsets
(`Object.Nesting`), and what a value leaves is known from `Nest.steps_emits`.  And where a counter
has wrapped around, the nest still says which bytes there are: `wrapped` is the encoding of a value
with every count taken modulo `2 ^ 32`, and equals the canonical encoding exactly for values that
are narrow enough.
-/
import TarantoolC.Object.Builder

namespace TarantoolC.Object

open MsgPack

/-! ## §1 — levels.

A level has the kind of its container, the number of its items, and its bytes so far. -/

/-- An open container: its kind, how many children were counted, and its contents. -/
structure Level where
  kind : Kind
  count : UInt32
  body : Bytes
  deriving Repr, DecidableEq

/-- Complete bytes, and the open containers behind them, innermost first. -/
structure Nest where
  base : Bytes
  levels : List Level
  deriving Repr, DecidableEq

/-- Put bytes into the innermost container. -/
def Nest.append (n : Nest) (bs : Bytes) : Nest :=
  match n.levels with
  | [] => { n with base := n.base ++ bs }
  | l :: ls => { n with levels := { l with body := l.body ++ bs } :: ls }

/-- Count one more child in the innermost container. -/
def Nest.countUp (n : Nest) : Nest :=
  match n.levels with
  | [] => n
  | l :: ls => { n with levels := { l with count := l.count + 1 } :: ls }

/-- A map with a key that has no value. -/
def Level.Odd (l : Level) : Prop := l.kind = .map ∧ l.count.toNat % 2 = 1

instance (l : Level) : Decidable l.Odd := inferInstanceAs (Decidable (_ ∧ _))

/-- A complete container. -/
def Level.closed (S : Style) (l : Level) : Bytes := l.kind.header S l.count.toNat ++ l.body

/-- A step with room for `cap` open containers; `none` where it has to be refused. -/
def Nest.step (S : Style) (cap : Nat) (n : Nest) : BuildOp → Option Nest
  | .leaf bs => some (n.countUp.append bs)
  | .opening k =>
    if n.levels.length < cap then
      some { n.countUp with levels := ⟨k, 0, []⟩ :: n.countUp.levels }
    else none
  | .closing =>
    match n.levels with
    | [] => none
    | l :: ls => if l.Odd then none else some (Nest.append ⟨n.base, ls⟩ (l.closed S))

/-- A run that goes on after a refused step: which steps were taken, and the state at the end. -/
def Nest.run (S : Style) (cap : Nat) : List BuildOp → Nest → List Bool × Nest
  | [], n => ([], n)
  | op :: ops, n =>
    match n.step S cap op with
    | none => ((run S cap ops n).1.cons false, (run S cap ops n).2)
    | some n => ((run S cap ops n).1.cons true, (run S cap ops n).2)

/-! ## §2 — bytes and offsets.

All levels one behind the other, each with its header in front: that is what the buffer holds, and
where each begins is what the stack holds. -/

/-- The bytes of complete data and open containers, each behind its placeholder. -/
def levelsBytes (S : Style) (base : Bytes) : List Level → Bytes
  | [] => base
  | l :: ls => levelsBytes S base ls ++ (l.kind.placeholder S ++ l.body)

/-- Where the open containers start, and their counters. -/
def levelsFrames (S : Style) (base : Bytes) : List Level → List Frame
  | [] => []
  | l :: ls => ⟨(levelsBytes S base ls).length, l.count.toNat, l.kind⟩ :: levelsFrames S base ls

def Nest.build (S : Style) (n : Nest) : Build :=
  ⟨levelsBytes S n.base n.levels, levelsFrames S n.base n.levels⟩

/-- Count one more child in the innermost frame, in 32 bits. -/
def recount : List Frame → List Frame
  | [] => []
  | f :: fs => { f with count := (f.count + 1) % 2 ^ 32 } :: fs

/-- One entry for each level. -/
theorem levelsFrames_length (S : Style) (base : Bytes) (ls : List Level) :
    (levelsFrames S base ls).length = ls.length := by
  induction ls with
  | nil => rfl
  | cons l ls ih => rw [levelsFrames, List.length_cons, List.length_cons, ih]

/-- No bytes, ... -/
@[simp] theorem Nest.append_nil (n : Nest) : n.append [] = n := by
  obtain ⟨base, levels⟩ := n
  cases levels <;> simp [Nest.append]

/-- ... bytes behind bytes, ... -/
theorem Nest.append_append (n : Nest) (xs ys : Bytes) :
    (n.append xs).append ys = n.append (xs ++ ys) := by
  obtain ⟨base, levels⟩ := n
  cases levels <;> simp [Nest.append]

/-- ... open nothing. -/
@[simp] theorem Nest.append_length (n : Nest) (bs : Bytes) :
    (n.append bs).levels.length = n.levels.length := by
  obtain ⟨base, levels⟩ := n
  cases levels <;> rfl

@[simp] theorem Nest.countUp_length (n : Nest) : n.countUp.levels.length = n.levels.length := by
  obtain ⟨base, levels⟩ := n
  cases levels <;> rfl

/-- Appending shows at the end of the bytes, and moves no header. -/
theorem Nest.append_build (S : Style) (n : Nest) (bs : Bytes) :
    (n.append bs).build S = ⟨(n.build S).bytes ++ bs, (n.build S).frames⟩ := by
  obtain ⟨base, levels⟩ := n
  cases levels with
  | nil => rfl
  | cons l ls => simp [Nest.build, Nest.append, levelsBytes, levelsFrames]

/-- Counting an item is counting it in the innermost entry. -/
theorem Nest.countUp_build (S : Style) (n : Nest) :
    n.countUp.build S = ⟨(n.build S).bytes, recount (n.build S).frames⟩ := by
  obtain ⟨base, levels⟩ := n
  cases levels with
  | nil => rfl
  | cons l ls => simp [Nest.build, Nest.countUp, levelsBytes, levelsFrames, recount]

/-- Opening a container puts its placeholder at the end and remembers where that is. -/
theorem Nest.open_build (S : Style) (n : Nest) (k : Kind) :
    Nest.build S { n with levels := ⟨k, 0, []⟩ :: n.levels } =
      ⟨(n.build S).bytes ++ k.placeholder S, ⟨(n.build S).bytes.length, 0, k⟩ :: (n.build S).frames⟩ := by
  simp [Nest.build, levelsBytes, levelsFrames]

/-- The innermost container as a frame. -/
def Nest.topFrame (S : Style) (n : Nest) (l : Level) : Frame :=
  ⟨(n.build S).bytes.length, l.count.toNat, l.kind⟩

/-- **Patching the placeholder of the innermost container** is closing its level: the bytes before
it are not touched, and those behind it are its contents. -/
theorem Nest.patch_top (S : Style) (base : Bytes) (l : Level) (ls : List Level) :
    Build.mk ((Nest.topFrame S ⟨base, ls⟩ l).patch S (levelsBytes S base (l :: ls)))
      (levelsFrames S base ls) = (Nest.append ⟨base, ls⟩ (l.closed S)).build S := by
  rw [Nest.append_build]
  refine congrArg₂ Build.mk ?_ rfl
  show (levelsBytes S base ls ++ (l.kind.placeholder S ++ l.body)).take (levelsBytes S base ls).length
      ++ (l.kind.header S l.count.toNat ++
        (levelsBytes S base ls ++ (l.kind.placeholder S ++ l.body)).drop
          ((levelsBytes S base ls).length + (l.kind.placeholder S).length)) = _
  rw [List.take_left, ← List.drop_drop, List.drop_left, List.drop_left]
  rfl

/-! ## §3 — values.

A value adds an item to the innermost level, whatever it is made of. -/

/-- The steps of a nest, up to the first that is refused. -/
def Nest.steps (S : Style) (cap : Nat) : List BuildOp → Nest → Option Nest
  | [], n => some n
  | op :: ops, n => (n.step S cap op).bind (steps S cap ops)

/-- Steps one after the other. -/
theorem Nest.steps_append (S : Style) (cap : Nat) (xs ys : List BuildOp) (n : Nest) :
    Nest.steps S cap (xs ++ ys) n = (Nest.steps S cap xs n).bind (Nest.steps S cap ys) := by
  induction xs generalizing n with
  | nil => rfl
  | cons x xs ih =>
    simp only [List.cons_append, Nest.steps]
    cases n.step S cap x with
    | none => rfl
    | some n' => exact ih n'

/-- A step that keeps to a smaller limit keeps to a larger one. -/
theorem Nest.step_mono {S : Style} {cap cap' : Nat} (hcap : cap ≤ cap') {n n' : Nest} {op : BuildOp}
    (h : n.step S cap op = some n') : n.step S cap' op = some n' := by
  cases op with
  | leaf bs => exact h
  | closing => exact h
  | opening k =>
    simp only [Nest.step] at h ⊢
    split at h
    · next hlt =>
      rw [if_pos (by omega)]
      exact h
    · exact absurd h (by simp)

mutual

/-- The encoding of a value with 32-bit counters: a container announces the number of its children
modulo `2^32`. -/
def wrapped (S : Style) : Value → Bytes
  | .array xs => Kind.header S .array (xs.length % 2 ^ 32) ++ wrappedAll S xs
  | .map kvs => Kind.header S .map (2 * kvs.length % 2 ^ 32) ++ wrappedPairs S kvs
  | v => encode v

def wrappedAll (S : Style) : List Value → Bytes
  | [] => []
  | v :: vs => wrapped S v ++ wrappedAll S vs

def wrappedPairs (S : Style) : List (Value × Value) → Bytes
  | [] => []
  | (k, v) :: kvs => wrapped S k ++ (wrapped S v ++ wrappedPairs S kvs)

end

/-- A map has the encodings of its keys and values. -/
theorem wrappedPairs_eq (S : Style) (kvs : List (Value × Value)) :
    wrappedPairs S kvs = wrappedAll S (flat kvs) := by
  induction kvs with
  | nil => simp [flat, wrappedPairs, wrappedAll]
  | cons kv kvs ih => obtain ⟨k, v⟩ := kv; simp [flat, wrappedPairs, wrappedAll, ih]

/-- Leaves have no counters. -/
theorem wrapped_leaf (S : Style) {v : Value} (h : depth v = 0) : wrapped S v = encode v := by
  cases v <;> first | rfl | (simp only [depth] at h; omega)

/-- Count `k` more children. -/
def Nest.countMany (n : Nest) : Nat → Nest
  | 0 => n
  | k + 1 => n.countUp.countMany k

/-- Bytes and counts do not meet. -/
theorem Nest.append_countMany (n : Nest) (bs : Bytes) (k : Nat) :
    (n.append bs).countMany k = (n.countMany k).append bs := by
  induction k generalizing n with
  | zero => rfl
  | succ k ih =>
    obtain ⟨base, levels⟩ := n
    cases levels with
    | nil => exact ih ⟨base, []⟩
    | cons l ls => exact ih ⟨base, { l with count := l.count + 1 } :: ls⟩

/-- Counting in an explicit level. -/
theorem Nest.countMany_cons (base : Bytes) (l : Level) (ls : List Level) (k : Nat) :
    Nest.countMany ⟨base, l :: ls⟩ k =
      ⟨base, { l with count := l.count + UInt32.ofNat k } :: ls⟩ := by
  induction k generalizing l with
  | zero => simp [Nest.countMany]
  | succ k ih =>
    have hsum : l.count + 1 + UInt32.ofNat k = l.count + UInt32.ofNat (k + 1) := by
      rw [UInt32.ofNat_add, UInt32.add_assoc, UInt32.add_comm 1]
      rfl
    show Nest.countMany ⟨base, { l with count := l.count + 1 } :: ls⟩ k = _
    rw [ih]
    simp only [hsum]

/-- Opening a container, emitting its children and closing it. -/
theorem Nest.steps_container {S : Style} {cap : Nat} {k : Kind} {ops : List BuildOp} {n : Nest}
    {count : Nat} {body : Bytes} (hcap : n.levels.length < cap) (heven : k = .map → count % 2 = 0)
    (hbody : Nest.steps S cap ops { n.countUp with levels := ⟨k, 0, []⟩ :: n.countUp.levels } =
      some ((Nest.countMany { n.countUp with levels := ⟨k, 0, []⟩ :: n.countUp.levels }
        count).append body)) :
    Nest.steps S cap (.opening k :: (ops ++ [.closing])) n =
      some (n.countUp.append (k.header S (count % 2 ^ 32) ++ body)) := by
  rw [Nest.countMany_cons] at hbody
  have hcount : (0 + UInt32.ofNat count).toNat = count % 2 ^ 32 := by
    rw [UInt32.zero_add, UInt32.toNat_ofNat']
  have hodd : ¬ Level.Odd ⟨k, 0 + UInt32.ofNat count, body⟩ := by
    rintro ⟨hk, hone⟩
    have heven := heven hk
    rw [hcount] at hone
    omega
  simp only [Nest.steps, Nest.step, if_pos hcap, Option.bind_some, Nest.steps_append, hbody,
    Nest.append, if_neg hodd, Level.closed, hcount, List.nil_append]

mutual

/-- **Emitting a value** counts one child and puts its encoding, with wrapped counters, into the
innermost container.  A leaf is one step; a container is a level that is opened, filled by its
children and closed. -/
theorem Nest.steps_emits (S : Style) (cap : Nat) : ∀ {v : Value} {ops : List BuildOp}, Emits v ops →
    ∀ {n : Nest}, n.levels.length + depth v ≤ cap →
      Nest.steps S cap ops n = some (n.countUp.append (wrapped S v))
  | _, _, .leaf h, n, _ => by
    simp only [Nest.steps, Nest.step, Option.bind_some, wrapped_leaf S h]
  | _, _, @Emits.array xs ops hxs, n, hd => by
    simp only [depth] at hd
    have hbody := Nest.steps_emitsAll S cap hxs
      (n := { n.countUp with levels := ⟨.array, 0, []⟩ :: n.countUp.levels })
      (by simp only [List.length_cons, Nest.countUp_length]; omega)
    exact Nest.steps_container (by omega) (fun hk => absurd hk (by decide)) hbody
  | _, _, @Emits.map kvs ops hkvs, n, hd => by
    simp only [depth, depthPairs_eq] at hd
    have hbody := Nest.steps_emitsAll S cap hkvs
      (n := { n.countUp with levels := ⟨.map, 0, []⟩ :: n.countUp.levels })
      (by simp only [List.length_cons, Nest.countUp_length]; omega)
    rw [flat_length, ← wrappedPairs_eq] at hbody
    exact Nest.steps_container (by omega) (fun _ => by omega) hbody

/-- The same for a sequence, which counts its members. -/
theorem Nest.steps_emitsAll (S : Style) (cap : Nat) : ∀ {vs : List Value} {ops : List BuildOp},
    EmitsAll vs ops → ∀ {n : Nest}, n.levels.length + depthAll vs ≤ cap →
      Nest.steps S cap ops n = some ((n.countMany vs.length).append (wrappedAll S vs))
  | _, _, .nil, n, _ => by
    simp only [Nest.steps, wrappedAll, List.length_nil, Nest.countMany, Nest.append_nil]
  | _, _, @EmitsAll.cons v vs xs ys hv hvs, n, hd => by
    simp only [depthAll] at hd
    have hfirst := Nest.steps_emits S cap hv (n := n) (by omega)
    have hrest := Nest.steps_emitsAll S cap hvs (n := n.countUp.append (wrapped S v))
      (by simp only [Nest.append_length, Nest.countUp_length]; omega)
    rw [Nest.steps_append, hfirst, Option.bind_some, hrest, Nest.append_countMany,
      Nest.append_append]
    rfl

end

/-- Where nothing is open, there is nothing to count. -/
theorem Nest.countMany_nil (base : Bytes) (k : Nat) :
    Nest.countMany ⟨base, []⟩ k = ⟨base, []⟩ := by
  induction k with
  | zero => rfl
  | succ k ih => exact ih

/-- From an empty nest, the values are what is left. -/
theorem Nest.steps_emitsAll_nil (S : Style) {cap : Nat} {vs : List Value} {ops : List BuildOp}
    (h : EmitsAll vs ops) (hcap : depthAll vs ≤ cap) :
    Nest.steps S cap ops ⟨[], []⟩ = some ⟨wrappedAll S vs, []⟩ := by
  rw [Nest.steps_emitsAll S cap h (by simpa using hcap), Nest.countMany_nil]
  rfl

end TarantoolC.Object
