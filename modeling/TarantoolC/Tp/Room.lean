/-
# TarantoolC.Tp.Room — where `tp.h` takes its room from: `tp_realloc` and `tp_format`.

`tp_ensure` is told how many bytes are needed BEHIND those in use, and passes that number on to the
reserve callback.  The callback of the library, `tp_realloc`, compares it with the size of the whole
block: doubling is taken to be enough when the doubled block could hold the new bytes alone.
`tpEnsure_delivers_iff` says when it is.

`tp_format` measures and writes in one pass over its arguments, and makes a second one when the room
was too small: with the old room, and with arguments that have been taken already.
`tpFormat_room_iff`: only the first pass is of use.

Sizes are 64 bits wide here and wrap around, in the doubling as well as in the comparison: a window
in the upper half of the address space can double to nothing.  `Suffices` has the arithmetic as the
source has it, modulo `2^64`, so that the condition is exact for every size that can be asked for.
-/
import TarantoolC.Object.Format
import TarantoolC.Tp.Frames

namespace TarantoolC.Tp

open MsgPack Msgpuck Mpsize Object

/-! ## §1 — `tp_realloc`.

The block is doubled, which is enough if the doubled block has room for the bytes in use and the new
ones.  The code asks for less than that. -/

/-- `tp_size`. -/
def tpSize (t : Tp) : Nat := t.e - t.s

/-- `realloc`, where it succeeds: a block of the size asked for that starts as the old one. -/
structure Realloc where
  call : Nat → Bytes → Nat → Nat × Bytes
  length_eq : ∀ s old n, (call s old n).2.length = n
  keeps : ∀ s old n, (call s old n).2.take (min old.length n) = old.take (min old.length n)

/-- `toalloc` in `tp_realloc`, a `size_t`. -/
def toalloc (size required : Nat) : Nat :=
  let doubled := size * 2 % 2 ^ 64
  if doubled < required then (size + required) % 2 ^ 64 else doubled

/-- `tp_realloc`. -/
def tpRealloc (A : Realloc) : Reserve := fun t required =>
  some (A.call t.s t.mem (toalloc (tpSize t) required))

/-- `s <= p <= e`, and the memory is what lies between. -/
structure InOrder (t : Tp) : Prop where
  s_le : t.s ≤ t.p
  p_le : t.p ≤ t.e
  mem_length : t.mem.length = t.e - t.s

/-- What `tp_ensure` promises: room for `size` bytes more, the bytes in use as they were, and the
pointers where they were among them. -/
structure Delivers (t t' : Tp) (size : Nat) : Prop where
  room : size ≤ tpUnused t'
  bytes : t'.bytes = t.bytes
  used : tpUsed t' = tpUsed t
  size : (t'.size.map fun a => a - t'.s) = t.size.map fun a => a - t.s
  sync : (t'.sync.map fun a => a - t'.s) = t.sync.map fun a => a - t.s

/-- The room is there; or a doubled block does not even hold the new bytes alone, and is enlarged by
their number instead; or it holds them behind those in use. -/
def Suffices (t : Tp) (size : Nat) : Prop :=
  size ≤ tpUnused t ∨ (2 * tpSize t % 2 ^ 64 < size ∧ tpSize t + size < 2 ^ 64) ∨
    (2 * tpSize t < 2 ^ 64 ∧ tpUsed t + size ≤ 2 * tpSize t)

/-- The arithmetic of the doubling rule. -/
theorem toalloc_suffices_iff {cap used size : Nat} (hused : used ≤ cap) (hsize : size < 2 ^ 64)
    (hfull : cap - used < size) :
    used + size ≤ toalloc cap size ↔ (2 * cap % 2 ^ 64 < size ∧ cap + size < 2 ^ 64) ∨
      (2 * cap < 2 ^ 64 ∧ used + size ≤ 2 * cap) := by
  rw [toalloc, Nat.mul_comm cap 2]
  split_ifs with hlt
  · constructor
    · intro h
      exact .inl ⟨hlt, by omega⟩
    · rintro (⟨-, hfits⟩ | ⟨hfits, hle⟩)
      · rw [Nat.mod_eq_of_lt hfits]
        omega
      · omega
  · constructor
    · intro h
      exact .inr (by omega)
    · rintro (⟨hno, -⟩ | ⟨hfits, hle⟩)
      · exact absurd hno hlt
      · rw [Nat.mod_eq_of_lt hfits]
        exact hle

/-- A window that moves into a block delivers if the block is large enough and starts as the old one
does. -/
theorem rebase_delivers_iff {t : Tp} (h : InOrder t) {np size : Nat} {block : Bytes}
    (hpos : 0 < size) (hkeep : block.take (min t.mem.length block.length) =
      t.mem.take (min t.mem.length block.length)) :
    Delivers t
      { s := np
        p := np + (t.p - t.s)
        e := np + block.length
        size := t.size.map fun a => np + (a - t.s)
        sync := t.sync.map fun a => np + (a - t.s)
        mem := block } size ↔ tpUsed t + size ≤ block.length := by
  have hs := h.s_le
  have hp := h.p_le
  have hm := h.mem_length
  have hback : ∀ l : Option Nat, ((l.map fun a => np + (a - t.s)).map fun a => a - np) =
      l.map fun a => a - t.s := by
    intro l
    rw [Option.map_map]
    simp only [Function.comp_def, Nat.add_sub_cancel_left]
  constructor
  · rintro ⟨hroom, -, -, -, -⟩
    have hle : size ≤ np + block.length - (np + (t.p - t.s)) := hroom
    show t.p - t.s + size ≤ block.length
    omega
  · intro hle
    have hused : t.p - t.s + size ≤ block.length := hle
    refine ⟨?_, ?_, Nat.add_sub_cancel_left _ _, hback t.size, hback t.sync⟩
    · show size ≤ np + block.length - (np + (t.p - t.s))
      omega
    · -- `realloc` keeps as much of the old block as there is room for
      show block.take (np + (t.p - t.s) - np) = t.mem.take (t.p - t.s)
      have htake := congrArg (List.take (t.p - t.s)) hkeep
      rw [List.take_take, List.take_take, Nat.min_eq_left (by omega)] at htake
      rw [Nat.add_sub_cancel_left]
      exact htake

/-- **When `tp_ensure` delivers**, with `tp_realloc` behind it and a `realloc` that does not fail:
exactly if the room is there, or the doubling rule suffices.  `tp_realloc` doubles the block, and
adds what is required only if that alone is more than the doubled size.  But it is required behind
the bytes in use, and these are not in the comparison. -/
theorem tpEnsure_delivers_iff (A : Realloc) {t : Tp} (h : InOrder t) (size : UInt64) :
    (∀ rc t', tpEnsure (some (tpRealloc A)) t size.toNat = (rc, t') → rc ≠ -1 →
      Delivers t t' size.toNat) ↔ Suffices t size.toNat := by
  have hs := h.s_le
  have hp := h.p_le
  have hlt := size.toNat_lt
  by_cases hroom : tpUnused t ≥ size.toNat
  · refine ⟨fun _ => .inl hroom, fun _ rc t' hens _ => ?_⟩
    simp only [tpEnsure, if_pos hroom, Prod.mk.injEq] at hens
    rcases hens with ⟨-, rfl⟩
    exact ⟨hroom, rfl, rfl, rfl, rfl⟩
  · -- there is no room, and the callback is asked
    obtain ⟨np, block, hcall⟩ : ∃ np block,
        A.call t.s t.mem (toalloc (tpSize t) size.toNat) = (np, block) := ⟨_, _, rfl⟩
    have hlen := A.length_eq t.s t.mem (toalloc (tpSize t) size.toNat)
    have hkeep := A.keeps t.s t.mem (toalloc (tpSize t) size.toNat)
    rw [hcall] at hlen hkeep
    dsimp only at hlen hkeep
    rw [← hlen] at hkeep
    have hfull : tpSize t - tpUsed t < size.toNat := by
      have hun : ¬ t.e - t.p ≥ size.toNat := hroom
      show t.e - t.s - (t.p - t.s) < size.toNat
      omega
    have hused : tpUsed t ≤ tpSize t := Nat.sub_le_sub_right hp t.s
    have harith := toalloc_suffices_iff hused hlt hfull
    rw [← hlen] at harith
    have hmoves := @rebase_delivers_iff t h np size.toNat block (by omega) hkeep
    have hsuffices : Suffices t size.toNat ↔ tpUsed t + size.toNat ≤ block.length := by
      rw [harith]
      refine ⟨fun hor => hor.resolve_left hroom, .inr⟩
    rw [hsuffices, ← hmoves]
    simp only [tpEnsure, if_neg hroom, tpRealloc, hcall, Prod.mk.injEq]
    constructor
    · intro hall
      exact hall _ _ ⟨rfl, rfl⟩ (by omega)
    · rintro hdel rc t' ⟨-, rfl⟩ -
      exact hdel

/-- A block of any size can be made of another, ... -/
theorem zeroed_length (old : Bytes) (n : Nat) :
    (old.take n ++ List.replicate (n - old.length) 0).length = n := by
  simp only [List.length_append, List.length_take, List.length_replicate]
  omega

/-- ... starting with the same bytes. -/
theorem zeroed_keeps (old : Bytes) (n : Nat) :
    (old.take n ++ List.replicate (n - old.length) 0).take (min old.length n) =
      old.take (min old.length n) := by
  rw [List.take_append_of_le_length (by rw [List.length_take]; omega), List.take_take]
  congr 1
  omega

/-- A `realloc` that clears what is new. -/
def zeroingRealloc : Realloc where
  call s old n := (s + 1000, old.take n ++ List.replicate (n - old.length) 0)
  length_eq _ := zeroed_length
  keeps _ := zeroed_keeps

/-- A window of 16 bytes with a ping in it. -/
def pinged : Tp where
  s := 0
  p := 15
  e := 16
  size := some 0
  sync := some 9
  mem := [0xce, 0, 0, 0, 10, 0x82, 0, 64, 1, 0xce, 0, 0, 0, 0, 0x80, 0]

/-- The window is in order, ... -/
theorem pinged_inOrder : InOrder pinged := ⟨by decide, by decide, rfl⟩

/-- ... and there is a size for which doubling is enough. -/
theorem tpEnsure_delivers_ping :
    ∃ rc t', tpEnsure (some (tpRealloc zeroingRealloc)) pinged 17 = (rc, t') ∧
      Delivers pinged t' 17 := by
  have hiff := tpEnsure_delivers_iff zeroingRealloc pinged_inOrder 17
  exact ⟨_, _, rfl, hiff.mpr (.inr (.inr (by decide))) _ _ rfl (by decide)⟩

/-- A block of 32 bytes is large enough for a text of 19, and not behind the ping: the text is
written across its end. -/
theorem tpEnsure_overrun :
    InOrder pinged ∧ ∃ rc t', tpEnsure (some (tpRealloc zeroingRealloc)) pinged 20 = (rc, t') ∧
      rc = 32 ∧ tpUnused t' = 17 ∧ ¬ Delivers pinged t' 20 ∧
      @tpEncodeStr Mpsize.reference (some (tpRealloc zeroingRealloc)) pinged
        ⟨List.replicate 19 0x61, by decide⟩ = none := by
  refine ⟨pinged_inOrder, _, _, rfl, rfl, rfl, ?_, by decide +kernel⟩
  rintro ⟨hroom, -, -, -, -⟩
  exact absurd hroom (by decide)

/-! ## §2 — `tp_format`.

`mp_vformat` is not part of the repository; what is used of it is in the class `Vformat`: that it
writes each value that fits, that it returns the length of all of them, and that it takes its
arguments one after the other. -/

/-- The values that are written into so much room: each as long as all up to it fit. -/
def fitting : Nat → List Bytes → List Bytes
  | _, [] => []
  | room, v :: vs => if v.length ≤ room then v :: fitting (room - v.length) vs else []

/-- `mp_vformat` of msgpuck, as far as `tp_format` relies on it.  The values of a format and its
arguments are given as bytes, with the arguments that are not taken; there are none where the format
asks for more than there is.  A call returns the full size, whatever the room, writes the values
that fit, and leaves the arguments taken in the `va_list`. -/
class Vformat where
  values : List Char → List VaArg → Option (List Bytes × List VaArg)
  mpVformat : Nat → List Char → List VaArg → Option (Nat × Bytes × List VaArg)
  mpVformat_eq : ∀ room fmt args, mpVformat room fmt args =
    (values fmt args).map fun (vs, rest) => (vs.flatten.length, (fitting room vs).flatten, rest)

open Vformat

/-- `tp_format`. -/
def tpFormat [Vformat] (R : Option Reserve) (t : Tp) (format : List Char) (args : List VaArg) :
    Option (Ret × Tp) := do
  let unused := tpUnused t
  let (sz, bs, args) ← mpVformat unused format args
  let t ← t.store t.p bs
  if sz > unused then
    let (rc, t) := tpEnsure R t sz
    if rc = -1 then return (.null, t)
    else
      let (_, bs, _) ← mpVformat unused format args
      let t ← t.store t.p bs
      let (ptr, t) ← tpAdd t sz
      return (.ptr ptr, t)
  else
    let (ptr, t) ← tpAdd t sz
    return (.ptr ptr, t)

/-- With room for all, all is written, ... -/
theorem fitting_of_le {room : Nat} {vs : List Bytes} (h : vs.flatten.length ≤ room) :
    fitting room vs = vs := by
  induction vs generalizing room with
  | nil => rfl
  | cons v vs ih =>
    rw [List.flatten_cons, List.length_append] at h
    rw [fitting, if_pos (by omega), ih (by omega)]

/-- ... and never more than there is room for. -/
theorem fitting_length_le (room : Nat) (vs : List Bytes) :
    (fitting room vs).flatten.length ≤ room := by
  induction vs generalizing room with
  | nil => exact Nat.zero_le room
  | cons v vs ih =>
    rw [fitting]
    split_ifs with hle
    · have hrest := ih (room - v.length)
      rw [List.flatten_cons, List.length_append]
      omega
    · exact Nat.zero_le room

/-- A reserve function that always grows sufficiently. -/
structure Grows (R : Reserve) : Prop where
  sound : R.Sound
  succeeds : ∀ t n, ∃ np block, R t n = some (np, block)

/-- The call succeeds, and these bytes stand behind the newest frame, which is as long as that. -/
def Extends (r : Option (Ret × Tp)) (f : Frame) (done : List Frame) (bs : Bytes) : Prop :=
  ∃ a t', r = some (.ptr a, t') ∧ Represents t' ({ f with body := f.body ++ bs } :: done)

/-- A callback whose new bytes are all the same. -/
def filling (junk : UInt8) : Reserve := fun t n => some (t.s, t.bytes ++ List.replicate n junk)

/-- It grows as far as it is asked to. -/
theorem filling_grows (junk : UInt8) : Grows (filling junk) := by
  refine ⟨?_, fun t n => ⟨_, _, rfl⟩⟩
  intro t n np block hused hblock
  rcases Prod.mk.inj (Option.some.inj hblock) with ⟨-, rfl⟩
  have hlen := bytes_length hused
  refine ⟨?_, ?_⟩
  · rw [List.length_append, hlen, List.length_replicate]
  · rw [← hlen, List.take_left]

section Format

variable [Vformat] {t : Tp} {f : Frame} {done : List Frame} {fmt : List Char}
  {args rest : List VaArg} {vs : List Bytes}

/-- What the measuring pass returns and what it has written, ... -/
theorem mpVformat_some (hvs : values fmt args = some (vs, rest)) (room : Nat) :
    mpVformat room fmt args = some (vs.flatten.length, (fitting room vs).flatten, rest) := by
  rw [mpVformat_eq, hvs]
  rfl

/-- ... which is no more than the room it was given. -/
theorem mpVformat_length_le {room n : Nat} {bs : Bytes}
    (h : mpVformat room fmt args = some (n, bs, rest)) : bs.length ≤ room := by
  rw [mpVformat_eq] at h
  rcases Option.map_eq_some_iff.mp h with ⟨⟨ws, rest'⟩, -, heq⟩
  have hbs : (fitting room ws).flatten = bs := congrArg (fun x => x.2.1) heq
  rw [← hbs]
  exact fitting_length_le room ws

/-- One pass is an appending function. -/
theorem tpFormat_one_pass (R : Option Reserve) (hvs : values fmt args = some (vs, rest))
    (hroom : vs.flatten.length ≤ tpUnused t) :
    tpFormat R t fmt args = tpAppend R t vs.flatten.length [vs.flatten] := by
  have hfit : (fitting (tpUnused t) vs).flatten = vs.flatten := by rw [fitting_of_le hroom]
  have hens : tpEnsure R t vs.flatten.length = (0, t) := by simp only [tpEnsure, if_pos hroom]
  have hno : ¬ vs.flatten.length > tpUnused t := by omega
  simp only [tpFormat, mpVformat_some hvs, hfit, tpAppend, hens, putAll, Option.bind_eq_bind,
    Option.bind_some, if_neg hno]
  rw [if_neg (by decide)]
  cases t.store t.p vs.flatten with
  | none => rfl
  | some t₁ => rfl

end Format

/-- A store behind the frames is none of their business. -/
theorem Represents.store_behind {t : Tp} {frames : List Frame} (h : Represents t frames) {bs : Bytes}
    (hroom : bs.length ≤ tpUnused t) :
    ∃ t', t.store t.p bs = some t' ∧ Represents t' frames ∧ tpUnused t' = tpUnused t ∧
      t'.mem = overwrite t.mem (wire frames).length bs := by
  have hp := h.p_eq
  have hun := h.unused
  have hused := h.used_le
  have hu := h.used
  have hbytes := h.bytes_eq
  have hle : (wire frames).length + bs.length ≤ t.mem.length := by omega
  have hstore := @store_eq t.s t.p t.e (wire frames).length t.size t.sync t.mem bs hle
  rw [← hp] at hstore
  have hlen := overwrite_length hle
  refine ⟨_, hstore, ⟨h.s_le, h.p_le, hlen.trans h.mem_length, ?_, h.size_eq, h.sync_eq⟩, rfl, rfl⟩
  show (overwrite t.mem (wire frames).length bs).take (tpUsed t) = wire frames
  have hold : t.mem.take (tpUsed t) = wire frames := hbytes
  have hall := take_overwrite hle
  have hcut := congrArg (List.take (wire frames).length) hall
  rw [List.take_take, Nat.min_eq_left (Nat.le_add_right _ _), ← hu, hold, hu, List.take_left] at hcut
  rw [hu]
  exact hcut

/-- What a filling callback leaves. -/
theorem filling_ensure {t : Tp} {frames : List Frame} (h : Represents t frames) {n : Nat}
    (hfull : tpUnused t < n) (junk : UInt8) :
    ∃ rc t', tpEnsure (some (filling junk)) t n = (rc, t') ∧ Represents t' frames ∧
      t'.mem = wire frames ++ List.replicate n junk := by
  have hsound := (filling_grows junk).sound t n _ _ h.used_le rfl
  rcases hsound with ⟨hroom, hkeep⟩
  have hrep := h.rebase t.s (by omega) hkeep
  refine ⟨(t.bytes ++ List.replicate n junk).length, _, ?_, hrep, ?_⟩
  · simp only [tpEnsure, if_neg (show ¬ tpUnused t ≥ n by omega), filling]
  · show t.bytes ++ List.replicate n junk = _
    rw [h.bytes_eq]

/-- Taking bytes into the frame changes its length field and no other byte. -/
theorem Represents.tpAdd_mem {t : Tp} {f : Frame} {done : List Frame} (h : Represents t (f :: done))
    {n a : Nat} {t' : Tp} (hadd : tpAdd t n = some (a, t')) :
    ∃ len, t'.mem = overwrite t.mem (wire done).length (five len) := by
  have hp := h.p_eq
  have hu := h.used
  have hused := h.used_le
  have hsize := h.size_cons
  rcases t with ⟨s, p, e, size, sync, mem⟩
  simp only at hp hsize hused
  subst hp hsize
  have hlen : (wire (f :: done)).length = (wire done).length + (14 + f.body.length) := by
    rw [wire_cons, List.length_append, f.bytes_length]
  rw [tpAdd_eq (by omega)] at hadd
  rcases Prod.mk.inj (Option.some.inj hadd) with ⟨-, rfl⟩
  exact ⟨_, rfl⟩

section Format

variable [Vformat] {t : Tp} {f : Frame} {done : List Frame} {fmt : List Char}
  {args rest : List VaArg} {vs : List Bytes}

/-- The last byte of a room that had to grow is not written: the second pass has the room of the
first. -/
theorem tpFormat_two_passes (h : Represents t (f :: done)) (hvs : values fmt args = some (vs, rest))
    (hfull : tpUnused t < vs.flatten.length) (junk : UInt8) {a : Nat} {t' : Tp}
    (hrun : tpFormat (some (filling junk)) t fmt args = some (.ptr a, t')) :
    t'.mem.drop ((wire (f :: done)).length + (vs.flatten.length - 1)) = [junk] := by
  have hfirst := fitting_length_le (tpUnused t) vs
  rcases h.store_behind hfirst with ⟨t₁, hstore₁, hrep₁, hun₁, -⟩
  have hfull₁ : tpUnused t₁ < vs.flatten.length := by omega
  rcases filling_ensure hrep₁ hfull₁ junk with ⟨rc, t₂, hens, hrep₂, hmem₂⟩
  simp only [tpFormat, mpVformat_some hvs, Option.bind_eq_bind, Option.bind_some, hstore₁,
    if_pos hfull, hens] at hrun
  split_ifs at hrun with hrc
  · cases hrun
  rcases Option.bind_eq_some_iff.mp hrun with ⟨⟨n, bs, rest'⟩, hsecond, hrun⟩
  -- the second pass has the room of the first, which is less than the encoding
  have hshort := mpVformat_length_le hsecond
  have hun₂ := hrep₂.unused
  rw [hmem₂, List.length_append, List.length_replicate] at hun₂
  have hroom₂ : bs.length ≤ tpUnused t₂ := by omega
  rcases hrep₂.store_behind hroom₂ with ⟨t₃, hstore₃, hrep₃, -, hmem₃⟩
  simp only [hstore₃, Option.bind_some] at hrun
  rcases Option.bind_eq_some_iff.mp hrun with ⟨⟨b, t₄⟩, hadd, hrun⟩
  rcases hrep₃.tpAdd_mem hadd with ⟨len, hmem₄⟩
  rcases Prod.mk.inj (Option.some.inj hrun) with ⟨-, rfl⟩
  set sz := vs.flatten.length with hsz
  have hlen : (wire (f :: done)).length = (wire done).length + (14 + f.body.length) := by
    rw [wire_cons, List.length_append, f.bytes_length]
  have hle : (wire (f :: done)).length + bs.length ≤ t₂.mem.length := by
    rw [hmem₂, List.length_append, List.length_replicate]
    omega
  have hlen₃ : t₃.mem.length = t₂.mem.length := by rw [hmem₃, overwrite_length hle]
  have hfive : (wire done).length + (five len).length ≤ t₃.mem.length := by
    rw [five_length]
    omega
  -- neither the length in front of the frame nor the second pass comes to that byte
  calc t₄.mem.drop ((wire (f :: done)).length + (sz - 1))
      = t₃.mem.drop ((wire (f :: done)).length + (sz - 1)) := by
        rw [hmem₄, hlen, Nat.add_assoc, drop_overwrite hfive (by rw [five_length]; omega)]
    _ = t₂.mem.drop ((wire (f :: done)).length + (sz - 1)) := by
        rw [hmem₃, drop_overwrite hle (by omega)]
    _ = [junk] := by
        rw [hmem₂, List.drop_append, List.drop_eq_nil_of_le (by omega), List.nil_append,
          Nat.add_sub_cancel_left, List.drop_replicate]
        have hone : sz - (sz - 1) = 1 := by omega
        rw [hone]
        rfl

/-- **`tp_format` in one state**: with every callback that grows sufficiently it appends the whole
encoding, exactly if no callback is asked. -/
theorem tpFormat_extends_iff (h : Represents t (f :: done))
    (hvs : values fmt args = some (vs, rest)) :
    (∀ R, Grows R → Extends (tpFormat (some R) t fmt args) f done vs.flatten) ↔
      vs.flatten.length ≤ tpUnused t := by
  constructor
  · intro hall
    by_contra hfull
    push Not at hfull
    have hne : vs.flatten ≠ [] := by
      intro hnil
      rw [hnil] at hfull
      exact Nat.not_lt_zero _ hfull
    -- a byte that is not the last of the encoding
    have hother : ∃ junk : UInt8, vs.flatten.getLast hne ≠ junk :=
      ⟨vs.flatten.getLast hne + 1, by simp⟩
    rcases hother with ⟨junk, hjunk⟩
    rcases hall _ (filling_grows junk) with ⟨a, t', hrun, hrep⟩
    have hlast := tpFormat_two_passes h hvs hfull junk hrun
    have hbytes := hrep.bytes_eq
    have hwire : wire ({ f with body := f.body ++ vs.flatten } :: done) =
        (wire done ++ (five (f.payload.length + vs.flatten.length) ++ f.payload)) ++ vs.flatten := by
      simp only [wire_cons, Frame.bytes, Frame.payload, List.append_assoc, List.length_append,
        Nat.add_assoc]
    have hfront : (wire done ++ (five (f.payload.length + vs.flatten.length) ++ f.payload)).length =
        (wire (f :: done)).length := by
      simp only [wire_cons, Frame.bytes, List.length_append, five_length]
    -- the last byte of the frame would be both
    have hread : t'.bytes.drop ((wire (f :: done)).length + (vs.flatten.length - 1)) =
        [vs.flatten.getLast hne] := by
      rw [hbytes, hwire, ← hfront, List.drop_append, List.drop_eq_nil_of_le (Nat.le_add_right _ _),
        List.nil_append, Nat.add_sub_cancel_left, List.drop_length_sub_one]
    rw [Tp.bytes, List.drop_take, hlast] at hread
    have hmem : vs.flatten.getLast hne ∈ List.take (t'.tpUsed - ((wire (f :: done)).length +
        (vs.flatten.length - 1))) [junk] := by
      rw [hread]
      exact List.mem_singleton_self _
    exact hjunk (List.mem_singleton.mp (List.mem_of_mem_take hmem))
  · intro hroom R hR
    -- one pass, and an ordinary append
    have htrust : Trusted (some R) := by
      intro reserve hsome
      cases hsome
      exact hR.sound
    rw [tpFormat_one_pass _ hvs hroom]
    have hsz : vs.flatten.length = [vs.flatten].flatten.length := by rw [List.flatten_singleton]
    rcases tpAppend_spec htrust h hsz with ⟨-, hlt⟩ | ⟨a, t', hok, hrep, -⟩
    · omega
    · refine ⟨a, t', hok, ?_⟩
      rw [List.flatten_singleton] at hrep
      exact hrep

/-- **When `tp_format` does not depend on the room.**  Two states hold the same frames; the encoding
is that of `mp_vformat` with room for all of it.  With every callback that grows sufficiently both
calls append it, exactly if neither has to ask.  In the second pass the list of arguments has been
used up by the first, and the room is what it was before the callback.  So no callback can be of
help, and the condition is that of the first pass in both states. -/
theorem tpFormat_room_iff {t' : Tp} (h : Represents t (f :: done)) (h' : Represents t' (f :: done))
    (hvs : values fmt args = some (vs, rest)) :
    (∀ R, Grows R → Extends (tpFormat (some R) t fmt args) f done vs.flatten ∧
        Extends (tpFormat (some R) t' fmt args) f done vs.flatten) ↔
      vs.flatten.length ≤ tpUnused t ∧ vs.flatten.length ≤ tpUnused t' := by
  rw [← tpFormat_extends_iff h hvs, ← tpFormat_extends_iff h' hvs]
  constructor
  · intro hall
    exact ⟨fun R hR => (hall R hR).1, fun R hR => (hall R hR).2⟩
  · rintro ⟨hleft, hright⟩ R hR
    exact ⟨hleft R hR, hright R hR⟩

end Format

/-- `NIL` and `%d` of msgpuck's formats. -/
def nilOrInt : List Char → List VaArg → Option (List Bytes × List VaArg)
  | 'N' :: 'I' :: 'L' :: f, args => do
    let (vs, rest) ← nilOrInt f args
    return ([0xc0] :: vs, rest)
  | '%' :: 'd' :: f, .int n :: args => do
    let (vs, rest) ← nilOrInt f args
    return ((if n < 0 then negBytes n.toInt else uintForm.min n.toInt.toNat) :: vs, rest)
  | '%' :: 'd' :: _, _ => none
  | _ :: f, args => nilOrInt f args
  | [], args => some ([], args)

@[reducible] def Vformat.nilOrInt : Vformat where
  values := Tp.nilOrInt
  mpVformat room fmt args := (Tp.nilOrInt fmt args).map fun (vs, rest) =>
    (vs.flatten.length, (fitting room vs).flatten, rest)
  mpVformat_eq _ _ _ := rfl

/-- The same ping, with more room. -/
def roomy : Tp := { pinged with e := 32, mem := pinged.mem ++ List.replicate 16 0 }

/-- Both windows hold the same ping, ... -/
theorem pinged_represents : Represents pinged [⟨.ping, 0, [0x80]⟩] :=
  ⟨by decide, by decide, rfl, by decide, rfl, rfl⟩

/-- ... one of them with room to spare. -/
theorem roomy_represents : Represents roomy [⟨.ping, 0, [0x80]⟩] :=
  ⟨by decide, by decide, rfl, by decide, rfl, rfl⟩

/-- A `NIL` behind it. -/
theorem tpFormat_room_nil :
    @Extends (@tpFormat Vformat.nilOrInt (some (filling 7)) pinged ['N', 'I', 'L'] []) ⟨.ping, 0, [0x80]⟩ []
      [0xc0] := by
  let _ := Vformat.nilOrInt
  have hvs : values ['N', 'I', 'L'] [] = some ([[0xc0]], []) := rfl
  have hiff := tpFormat_room_iff pinged_represents roomy_represents hvs
  exact (hiff.mpr (by decide) _ (filling_grows 7)).1

/-- Two values and room for one: it is written twice, and the second byte of the frame is whatever
the callback left there.  With a number there is no argument left for the second pass. -/
theorem tpFormat_straddles :
    let _ := Vformat.nilOrInt
    let two := ['N', 'I', 'L', 'N', 'I', 'L']
    Represents pinged [⟨.ping, 0, [0x80]⟩] ∧ Represents roomy [⟨.ping, 0, [0x80]⟩] ∧
      Grows (filling 7) ∧ values two [] = some ([[0xc0], [0xc0]], []) ∧
      (tpFormat (some (filling 7)) roomy two []).map (fun x => x.2.bytes.drop 15) =
        some [0xc0, 0xc0] ∧
      (tpFormat (some (filling 7)) pinged two []).map (fun x => x.2.bytes.drop 15) =
        some [0xc0, 7] ∧
      tpFormat (some (filling 7)) pinged ['%', 'd'] [.int 1000] = none ∧
      ¬ Extends (tpFormat (some (filling 7)) pinged two []) ⟨.ping, 0, [0x80]⟩ [] [0xc0, 0xc0] := by
  intro _ two
  have hvs : values two [] = some ([[0xc0], [0xc0]], []) := rfl
  have hsnd : (tpFormat (some (filling 7)) pinged two []).map (fun x => x.2.bytes.drop 15) =
      some [0xc0, 7] := by decide +kernel
  refine ⟨pinged_represents, roomy_represents, filling_grows 7, hvs, by decide +kernel, hsnd,
    by decide +kernel, ?_⟩
  rintro ⟨a, t', hrun, hrep⟩
  rw [hrun, Option.map_some, hrep.bytes_eq] at hsnd
  exact absurd hsnd (by decide)

end TarantoolC.Tp
