/-
# TarantoolC.Buf — the growing byte buffer under `tnt_buf` and `tnt_object` (`tnt/tnt_buf.c`).

A buffer owns one block of `alloc` bytes of which the first `size` are in use; the rest hold
whatever the allocator left there.  The block is memory, not a value: writes are bounds-checked
(`Block.store`), a write outside the block or through a released pointer is undefined behaviour and
makes the whole call `none`.

The allocator (`tnt_mem_realloc`) is a parameter: an `Allocator` answers one request, with the old
contents kept in front of arbitrary bytes or with a failure, and every call of the library may meet
another one.  Sizes are `size_t` in the source; no block reaches `2^64` bytes, so they are natural
numbers here.

`StreamBuf` is `struct tnt_stream_buf`.  It may be FIXED, built over a string of the user (`as`):
such a buffer has no block of its own, nothing may be written to it, and its memory is never given
to `realloc` by the library.  (What happens to that in `tnt_object` is another matter, see
`TarantoolC.Object.Fixed`.)

Growing is a parameter as well (`Resize`), since `tnt_buf` and `tnt_object` install different
functions: one asks for exactly what is needed, the other doubles.  `Resize.Spec` is what both
promise, and `tntBufWrite_spec` and `tntBufWritev_spec` are proved from it once: a write appends,
the bytes that were there stay where they are, and a failure changes nothing but possibly the block,
which may be gone.
-/
import TarantoolC.MsgPack.Format

namespace TarantoolC

open MsgPack

/-! ## §1 — blocks.

Memory with bounds: a store that does not lie inside is undefined, and one that does overwrites. -/

/-- What a `char *` of the library leads to. -/
inductive Block where
  | null
  | live (bytes : Bytes)
  | freed
  deriving Repr, DecidableEq

/-- The bytes behind a pointer that may be handed to `realloc`. -/
def Block.contents : Block → Option Bytes
  | .null => some []
  | .live bytes => some bytes
  | .freed => none

/-- `tnt_mem_free`, which leaves `NULL` alone. -/
def Block.free : Block → Block
  | .null => .null
  | _ => .freed

/-- Overwrite the bytes from `off` on, within the list. -/
def overwrite (mem : Bytes) (off : Nat) (src : Bytes) : Bytes :=
  mem.take off ++ (src ++ mem.drop (off + src.length))

/-- `memcpy(block + off, src, |src|)`; `none` outside the block. -/
def Block.store (b : Block) (off : Nat) (src : Bytes) : Option Block :=
  match b with
  | .live mem => if off + src.length ≤ mem.length then some (.live (overwrite mem off src)) else none
  | _ => none

/-- `memmove(block + dst, block + src, n)`. -/
def Block.move (b : Block) (dst src n : Nat) : Option Block :=
  match b with
  | .live mem => if src + n ≤ mem.length then b.store dst ((mem.drop src).take n) else none
  | _ => none

/-- Overwriting within a list keeps its length, ... -/
theorem overwrite_length {mem src : Bytes} {off : Nat} (h : off + src.length ≤ mem.length) :
    (overwrite mem off src).length = mem.length := by
  simp only [overwrite, List.length_append, List.length_take, List.length_drop]
  omega

/-- Writing right behind the used part extends it. -/
theorem take_overwrite {mem src : Bytes} {off : Nat} (h : off + src.length ≤ mem.length) :
    (overwrite mem off src).take (off + src.length) = mem.take off ++ src := by
  have hoff : (mem.take off).length = off := List.length_take_of_le (by omega)
  unfold overwrite
  rw [List.take_append, hoff, List.take_of_length_le (by rw [hoff]; omega),
    Nat.add_sub_cancel_left, List.take_left]

/-- ... and what is behind. -/
theorem drop_overwrite {mem src : Bytes} {off n : Nat} (h : off + src.length ≤ mem.length)
    (hn : src.length ≤ n) : (overwrite mem off src).drop (off + n) = mem.drop (off + n) := by
  have hoff : (mem.take off).length = off := List.length_take_of_le (by omega)
  unfold overwrite
  rw [List.drop_append, hoff, List.drop_eq_nil_of_le (by rw [hoff]; omega), List.nil_append,
    Nat.add_sub_cancel_left, List.drop_append, List.drop_eq_nil_of_le hn, List.nil_append,
    List.drop_drop]
  congr 1
  omega

/-- Two adjacent writes are one write of both pieces. -/
theorem overwrite_overwrite {mem v w : Bytes} {off : Nat}
    (h : off + (v.length + w.length) ≤ mem.length) :
    overwrite (overwrite mem off v) (off + v.length) w = overwrite mem off (v ++ w) := by
  have hv : off + v.length ≤ mem.length := by omega
  rw [overwrite, take_overwrite hv, Nat.add_assoc, drop_overwrite hv (by omega)]
  simp only [overwrite, List.append_assoc, List.length_append]

/-- ... also when the piece in front is written last. -/
theorem overwrite_before {mem v w : Bytes} {off : Nat}
    (h : off + (v.length + w.length) ≤ mem.length) :
    overwrite (overwrite mem (off + v.length) w) off v = overwrite mem off (v ++ w) := by
  have hlen : (mem.take (off + v.length)).length = off + v.length :=
    List.length_take_of_le (by omega)
  have htake : (overwrite mem (off + v.length) w).take off = mem.take off := by
    unfold overwrite
    rw [List.take_append_of_le_length (by rw [hlen]; omega), List.take_take]
    congr 1
    omega
  have hdrop : (overwrite mem (off + v.length) w).drop (off + v.length) =
      w ++ mem.drop (off + v.length + w.length) := by
    unfold overwrite
    rw [List.drop_append, hlen, List.drop_eq_nil_of_le (by rw [hlen]), List.nil_append,
      Nat.sub_self, List.drop_zero]
  rw [overwrite, htake, hdrop]
  simp only [overwrite, List.append_assoc, List.length_append, Nat.add_assoc]

/-- A write inside the used part is a write of the used part. -/
theorem take_overwrite_inside {mem src : Bytes} {off n : Nat} (h : off + src.length ≤ n)
    (hn : n ≤ mem.length) : (overwrite mem off src).take n = overwrite (mem.take n) off src := by
  have hoff : (mem.take off).length = off := List.length_take_of_le (by omega)
  have hsrc : src.take (n - off) = src := List.take_of_length_le (by omega)
  have hrest : (mem.drop (off + src.length)).take (n - off - src.length) =
      (mem.take n).drop (off + src.length) := by
    rw [List.drop_take, Nat.sub_sub]
  unfold overwrite
  rw [List.take_append, hoff, List.take_of_length_le (by rw [hoff]; omega), List.take_append, hsrc,
    hrest, List.take_take, Nat.min_eq_left (by omega)]

/-- What a store that stays in bounds leaves: a block as long as before. -/
theorem Block.store_eq_some {b b' : Block} {off : Nat} {src : Bytes}
    (h : b.store off src = some b') :
    ∃ mem, b = .live mem ∧ off + src.length ≤ mem.length ∧ b' = .live (overwrite mem off src) := by
  cases b with
  | null => exact absurd h (by simp [Block.store])
  | freed => exact absurd h (by simp [Block.store])
  | live mem =>
    simp only [Block.store] at h
    split at h
    · next hle => exact ⟨mem, rfl, hle, (Option.some.inj h).symm⟩
    · exact absurd h (by simp)

/-! ## §2 — the allocator.

Any function that keeps the old contents in front of the new block, or fails.  What else is in the
block is not known. -/

/-- One answer of the allocator.  `realloc old n` is the new block for a block with contents `old`
(empty for `NULL`), or a failure; it keeps the old bytes and promises nothing about the others. -/
structure Allocator where
  realloc : Bytes → Nat → Option Bytes
  realloc_length : ∀ old n new, realloc old n = some new → new.length = n
  realloc_keeps : ∀ old n new, realloc old n = some new → old.length ≤ n →
    new.take old.length = old

/-- The allocator does not run out of memory. -/
def Allocator.Succeeds (A : Allocator) : Prop := ∀ old n, 0 < n → ∃ new, A.realloc old n = some new

/-- An allocator that fills new bytes with zeros (`custom_realloc` on a fresh process). -/
def Allocator.zeroing : Allocator where
  realloc old n := some (old.take n ++ List.replicate (n - old.length) 0)
  realloc_length old n new h := by
    obtain rfl := Option.some.inj h
    simp only [List.length_append, List.length_take, List.length_replicate]
    omega
  realloc_keeps old n new h hle := by
    obtain rfl := Option.some.inj h
    rw [List.take_of_length_le hle, List.take_left]

/-- The allocator that concrete runs use has memory. -/
theorem Allocator.zeroing_succeeds : Allocator.zeroing.Succeeds := fun _ _ _ => ⟨_, rfl⟩

/-! ## §3 — `struct tnt_stream_buf` and its writes. -/

/-- `struct tnt_stream_buf`; `fixed` is the field `as` (built over a user's string). -/
structure StreamBuf where
  data : Block
  size : Nat
  alloc : Nat
  rdoff : Nat
  fixed : Bool
  deriving Repr, DecidableEq

/-- The counters of `struct tnt_stream` with its buffer. -/
structure BufStream where
  sb : StreamBuf
  wrcnt : UInt32
  reqid : UInt64
  deriving Repr, DecidableEq

/-- `tnt_buf(NULL)`. -/
def tntBuf : BufStream where
  sb := { data := .null, size := 0, alloc := 0, rdoff := 0, fixed := false }
  wrcnt := 0
  reqid := 0

/-- The bytes in use, `data[0 .. size)`. -/
def StreamBuf.bytes (sb : StreamBuf) : Bytes :=
  match sb.data with
  | .live mem => mem.take sb.size
  | _ => []

/-- A resize function: may the caller write (`false` for `NULL`), and the buffer after it. -/
abbrev Resize := Allocator → StreamBuf → Nat → Option (Bool × StreamBuf)

/-- `tnt_buf_write`. -/
def tntBufWrite (resize : Resize) (A : Allocator) (s : BufStream) (buf : Bytes) :
    Option (Int × BufStream) :=
  if s.sb.fixed then some (-1, s)
  else do
    let (ok, sb) ← resize A s.sb buf.length
    if !ok then return (-1, { s with sb := sb })
    let data ← sb.data.store sb.size buf
    return (buf.length,
      { s with sb := { sb with data := data, size := sb.size + buf.length }, wrcnt := s.wrcnt + 1 })

/-- The copy loop of `tnt_buf_writev`: one `memcpy` for every entry, at a moving pointer. -/
def storeAll (b : Block) (off : Nat) : List Bytes → Option Block
  | [] => some b
  | v :: iov => do
    let b ← b.store off v
    storeAll b (off + v.length) iov

/-- `tnt_buf_writev`. -/
def tntBufWritev (resize : Resize) (A : Allocator) (s : BufStream) (iov : List Bytes) :
    Option (Int × BufStream) :=
  if s.sb.fixed then some (-1, s)
  else do
    let size := (iov.map List.length).sum
    let (ok, sb) ← resize A s.sb size
    if !ok then return (-1, { s with sb := sb })
    let data ← storeAll sb.data sb.size iov
    return (size,
      { s with sb := { sb with data := data, size := sb.size + size }, wrcnt := s.wrcnt + 1 })

/-! ## §4 — a buffer in order.

The size says how many bytes are in use, and the block has at least as many.  Every write keeps it;
a failed `realloc` ends it. -/

/-- The buffer owns a block of `alloc` bytes (none yet, if `alloc` is 0), uses `size` of them and
was not built over a user's string. -/
structure StreamBuf.WF (sb : StreamBuf) : Prop where
  owned : sb.fixed = false
  block : sb.data = .null ∧ sb.alloc = 0 ∨ ∃ mem, sb.data = .live mem ∧ mem.length = sb.alloc
  size_le : sb.size ≤ sb.alloc

/-- A new buffer is in order: it owns nothing and uses nothing. -/
theorem tntBuf_wf : tntBuf.sb.WF := ⟨rfl, .inl ⟨rfl, rfl⟩, Nat.le_refl _⟩

/-- The bytes in use are as many as `size` says. -/
theorem StreamBuf.WF.bytes_length {sb : StreamBuf} (h : sb.WF) : sb.bytes.length = sb.size := by
  have hsize := h.size_le
  unfold StreamBuf.bytes
  rcases h.block with ⟨hd, ha⟩ | ⟨mem, hd, hlen⟩
  · rw [hd]; simp; omega
  · rw [hd]; simp; omega

/-- What a resize function promises: on success there is room for `n` more bytes and the bytes in
use are untouched; with an allocator that succeeds it succeeds. -/
structure Resize.Spec (resize : Resize) : Prop where
  ok : ∀ {A sb n}, A.Succeeds → StreamBuf.WF sb → 0 < n →
    ∃ sb', resize A sb n = some (true, sb') ∧ sb'.WF ∧ sb'.bytes = sb.bytes ∧
      sb'.size = sb.size ∧ sb'.rdoff = sb.rdoff ∧ sb.size + n ≤ sb'.alloc

/-- A store behind the bytes in use, inside the block. -/
theorem StreamBuf.WF.store {sb : StreamBuf} (h : sb.WF) {src : Bytes} (hpos : 0 < src.length)
    (hroom : sb.size + src.length ≤ sb.alloc) :
    ∃ mem, sb.data.store sb.size src = some (.live mem) ∧ mem.length = sb.alloc ∧
      mem.take (sb.size + src.length) = sb.bytes ++ src := by
  rcases h.block with ⟨-, ha⟩ | ⟨mem, hd, hlen⟩
  · omega
  · have hle : sb.size + src.length ≤ mem.length := by omega
    refine ⟨overwrite mem sb.size src, ?_, ?_, ?_⟩
    · rw [hd]; simp only [Block.store, if_pos hle]
    · rw [overwrite_length hle, hlen]
    · rw [take_overwrite hle]; simp only [StreamBuf.bytes, hd]

/-- The buffer after `src` was stored behind the bytes in use. -/
theorem StreamBuf.WF.extend {sb : StreamBuf} (h : sb.WF) {mem src : Bytes}
    (hlen : mem.length = sb.alloc) (htake : mem.take (sb.size + src.length) = sb.bytes ++ src)
    (hroom : sb.size + src.length ≤ sb.alloc) :
    let sb' := { sb with data := .live mem, size := sb.size + src.length }
    sb'.WF ∧ sb'.bytes = sb.bytes ++ src :=
  ⟨⟨h.owned, .inr ⟨mem, rfl, hlen⟩, hroom⟩, htake⟩

/-- The copy loop stores the concatenation. -/
theorem storeAll_eq_store {b : Block} {off : Nat} {iov : List Bytes} {mem : Bytes}
    (h : b.store off iov.flatten = some (.live mem)) (hlive : ∃ m, b = .live m) :
    storeAll b off iov = some (.live mem) := by
  induction iov generalizing b off with
  | nil =>
    obtain ⟨m, rfl⟩ := hlive
    simp only [Block.store, List.flatten_nil, List.length_nil, Nat.add_zero] at h
    split at h
    · have hm : overwrite m off [] = m := by simp [overwrite]
      rw [hm] at h
      exact h
    · exact absurd h (by simp)
  | cons v iov ih =>
    obtain ⟨m, rfl⟩ := hlive
    simp only [Block.store] at h
    split at h
    · next hle =>
      simp only [List.flatten_cons, List.length_append] at hle
      have hv : off + v.length ≤ m.length := by omega
      have hfirst : Block.store (.live m) off v = some (.live (overwrite m off v)) := by
        simp only [Block.store, if_pos hv]
      simp only [storeAll, hfirst, bind, Option.bind_some]
      refine ih ?_ ⟨_, rfl⟩
      simp only [Block.store, overwrite_length hv]
      rw [if_pos (by omega), overwrite_overwrite hle]
      exact h
    · exact absurd h (by simp)

/-- A store inside the bytes in use. -/
theorem StreamBuf.WF.store_inside {sb : StreamBuf} (h : sb.WF) (off : Nat) {src : Bytes}
    (hpos : 0 < src.length) (hin : off + src.length ≤ sb.size) :
    ∃ data, sb.data.store off src = some data ∧
      StreamBuf.WF { sb with data := data } ∧
      StreamBuf.bytes { sb with data := data } = overwrite sb.bytes off src := by
  have hsize := h.size_le
  rcases h.block with ⟨-, ha⟩ | ⟨mem, hd, hlen⟩
  · omega
  · have hle : off + src.length ≤ mem.length := by omega
    refine ⟨.live (overwrite mem off src), ?_, ⟨h.owned, .inr ⟨_, rfl, ?_⟩, hsize⟩, ?_⟩
    · rw [hd]; simp only [Block.store, if_pos hle]
    · rw [overwrite_length hle, hlen]
    · simp only [StreamBuf.bytes, hd]
      exact take_overwrite_inside hin (by omega)

section Writes

variable {resize : Resize} {A : Allocator} {s : BufStream}

/-- `tnt_buf_write` once the resize has made room. -/
theorem tntBufWrite_roomed {buf : Bytes} {sb₁ : StreamBuf} (hs : s.sb.fixed = false)
    (hres : resize A s.sb buf.length = some (true, sb₁)) (hwf : sb₁.WF)
    (hbytes : sb₁.bytes = s.sb.bytes) (hroom : sb₁.size + buf.length ≤ sb₁.alloc)
    (hpos : 0 < buf.length) :
    ∃ mem, tntBufWrite resize A s buf = some ((buf.length : Int),
        { s with
          sb := { sb₁ with data := .live mem, size := sb₁.size + buf.length }
          wrcnt := s.wrcnt + 1 }) ∧
      sb₁.data.store sb₁.size buf = some (.live mem) ∧
      StreamBuf.WF { sb₁ with data := .live mem, size := sb₁.size + buf.length } ∧
      mem.take (sb₁.size + buf.length) = s.sb.bytes ++ buf := by
  obtain ⟨mem, hstore, hlen, htake⟩ := hwf.store hpos hroom
  obtain ⟨hwf', -⟩ := hwf.extend hlen htake hroom
  refine ⟨mem, ?_, hstore, hwf', by rw [htake, hbytes]⟩
  simp only [tntBufWrite, hs, hres, hstore, bind, Option.bind_some, pure, Bool.false_eq_true,
    if_false, Bool.not_true]

/-- ... and so is `tnt_buf_writev`, for the concatenation of its vector. -/
theorem tntBufWritev_eq {iov : List Bytes} {sb₁ : StreamBuf} (hs : s.sb.fixed = false)
    (hres : resize A s.sb iov.flatten.length = some (true, sb₁)) (hwf : sb₁.WF)
    (hroom : sb₁.size + iov.flatten.length ≤ sb₁.alloc) (hpos : 0 < iov.flatten.length) :
    tntBufWritev resize A s iov = tntBufWrite resize A s iov.flatten := by
  obtain ⟨mem, hstore, -, -⟩ := hwf.store hpos hroom
  have hlive : ∃ m, sb₁.data = .live m := by
    rcases hwf.block with ⟨-, ha⟩ | ⟨m, hd, -⟩
    · omega
    · exact ⟨m, hd⟩
  have hall := storeAll_eq_store hstore hlive
  have hsum : (iov.map List.length).sum = iov.flatten.length := by simp [List.length_flatten]
  simp only [tntBufWritev, tntBufWrite, hs, hsum, hres, hall, hstore, bind, Option.bind_some, pure,
    Bool.false_eq_true, if_false, Bool.not_true]

variable (hr : resize.Spec) (hA : A.Succeeds) (hs : s.sb.WF)

include hr hA hs

/-- **`tnt_buf_write` appends.**  Whichever way of growing is installed, and whether the block is
moved or not. -/
theorem tntBufWrite_spec {buf : Bytes} (hpos : 0 < buf.length) :
    ∃ sb', tntBufWrite resize A s buf =
        some ((buf.length : Int), { s with sb := sb', wrcnt := s.wrcnt + 1 }) ∧
      sb'.WF ∧ sb'.bytes = s.sb.bytes ++ buf ∧ sb'.rdoff = s.sb.rdoff := by
  obtain ⟨sb₁, hres, hwf, hbytes, hsize, hrd, hroom⟩ := hr.ok hA hs hpos
  rw [← hsize] at hroom
  obtain ⟨mem, hw, -, hwf', htake⟩ := tntBufWrite_roomed hs.owned hres hwf hbytes hroom hpos
  exact ⟨_, hw, hwf', htake, hrd⟩

/-- **`tnt_buf_writev` appends the concatenation of its vector.**  Room is made once, for all of it;
then the entries are copied one behind the other. -/
theorem tntBufWritev_spec {iov : List Bytes} (hpos : 0 < iov.flatten.length) :
    ∃ sb', tntBufWritev resize A s iov =
        some ((iov.flatten.length : Int), { s with sb := sb', wrcnt := s.wrcnt + 1 }) ∧
      sb'.WF ∧ sb'.bytes = s.sb.bytes ++ iov.flatten ∧ sb'.rdoff = s.sb.rdoff := by
  obtain ⟨sb₁, hres, hwf, -, hsize, -, hroom⟩ := hr.ok hA hs hpos
  rw [← hsize] at hroom
  rw [tntBufWritev_eq hs.owned hres hwf hroom hpos]
  exact tntBufWrite_spec hr hA hs hpos

end Writes

end TarantoolC
