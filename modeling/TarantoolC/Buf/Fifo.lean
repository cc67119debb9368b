/-
# TarantoolC.Buf.Fifo — writing to and reading from a `tnt_buf` stream (`tnt/tnt_buf.c`).

A plain buffer grows by exactly what is written, so its block is the bytes in use and nothing else
(`StreamBuf.Full`), and a cursor `rdoff` marks how far it has been read.  A FIFO is what this is
for: what the readers get is what the writers put in, in order, and the stored bytes stay.

`tnt_buf_read` has the arguments of its `memcpy` the wrong way round: it stores the reader's buffer
in the stream.  `tntBuf_fifo_iff` says what is left of the FIFO, over whole runs of writes and reads
of any sizes: it behaves like one exactly as long as every reader brings the bytes it is asking for.

The law is stated without the code: `Seen` keeps, beside the stream, all that writers have put in
and all that readers have got, and `StepOk` says what a call may do to these two lists and what it
returns.  A read of `size` bytes hands over `min size (written - read)` of them, the next ones in
order; it returns how many; and no call changes a byte that is stored.

The condition is about the run as well.  A reader is PRIMED if its own buffer, before the call,
starts with the bytes it is going to get: then copying in the wrong direction writes what is there
already.  `exec_read` is the step in both directions: with an unprimed buffer the law is broken by
that very read, either in what the reader holds or in what is stored; and with a primed one the
invariant goes on.
-/
import TarantoolC.Buf

namespace TarantoolC

open MsgPack

/-! ## §1 — the code. -/

/-- `tnt_buf_resize`. -/
def tntBufResize : Resize := fun A sb size => do
  let nsize := sb.size + size
  let old ← sb.data.contents
  match A.realloc old nsize with
  | none => return (false, { sb with data := sb.data.free })
  | some nd => return (true, { sb with data := .live nd, alloc := nsize })

/-- `tnt_buf_read` with the caller's buffer, `size` bytes long: the return value, the caller's
buffer after the call and the stream.  The copy goes from the caller's buffer into the block. -/
def tntBufRead (s : BufStream) (buf : Bytes) : Option (Int × Bytes × BufStream) :=
  if s.sb.data = .null then some (0, buf, s)
  else if s.sb.size = s.sb.rdoff then some (0, buf, s)
  else do
    let avail := s.sb.size - s.sb.rdoff
    let size := if buf.length > avail then avail else buf.length
    let data ← s.sb.data.store s.sb.rdoff (buf.take size)
    return (size, buf, { s with sb := { s.sb with data := data, rdoff := s.sb.rdoff + size } })

/-- What is written in one call. -/
inductive Piece where
  | write (buf : Bytes)
  | writev (iov : List Bytes)

def Piece.bytes : Piece → Bytes
  | .write buf => buf
  | .writev iov => iov.flatten

/-- `s->write(s, buf, size)` or `s->writev(s, iov, count)`. -/
def Piece.exec (A : Allocator) (s : BufStream) : Piece → Option (Int × BufStream)
  | .write buf => tntBufWrite tntBufResize A s buf
  | .writev iov => tntBufWritev tntBufResize A s iov

/-! ## §2 — writing.

A write is an append, and the block has just the size of the bytes. -/

/-- `custom_realloc` (`tnt/tnt_mem.c`) while memory lasts: a block for every request, except that
there is none for a request of no bytes. -/
structure Allocator.Lasts (A : Allocator) : Prop where
  succeeds : A.Succeeds
  zero : ∀ old, A.realloc old 0 = none

/-- A plain buffer in order: its block is exactly the bytes in use. -/
structure StreamBuf.Full (sb : StreamBuf) : Prop where
  owned : sb.fixed = false
  block : sb.data = .null ∧ sb.size = 0 ∨
    ∃ mem, sb.data = .live mem ∧ mem.length = sb.size ∧ 0 < sb.size
  rdoff_le : sb.rdoff ≤ sb.size

/-- A new buffer. -/
theorem tntBuf_full : tntBuf.sb.Full := ⟨rfl, Or.inl ⟨rfl, rfl⟩, Nat.le_refl _⟩

/-- The bytes in use are as many as `size` says, ... -/
theorem StreamBuf.Full.bytes_length {sb : StreamBuf} (h : sb.Full) : sb.bytes.length = sb.size := by
  unfold StreamBuf.bytes
  rcases h.block with ⟨hd, hsize⟩ | ⟨mem, hd, hlen, -⟩
  · rw [hd, hsize]
    rfl
  · rw [hd]
    simp [hlen]

/-- ... and they are the whole block. -/
theorem StreamBuf.Full.contents {sb : StreamBuf} (h : sb.Full) :
    sb.data.contents = some sb.bytes := by
  unfold StreamBuf.bytes
  rcases h.block with ⟨hd, -⟩ | ⟨mem, hd, hlen, -⟩
  · rw [hd]
    rfl
  · rw [hd]
    simp only [Block.contents]
    rw [List.take_of_length_le (by omega)]

/-- A request for bytes is answered, and the bytes in use are moved along. -/
theorem tntBufResize_spec {A : Allocator} (hA : A.Lasts) {sb : StreamBuf} (hs : sb.Full) {n : Nat}
    (hpos : 0 < sb.size + n) :
    ∃ nd, tntBufResize A sb n = some (true, { sb with data := .live nd, alloc := sb.size + n }) ∧
      nd.length = sb.size + n ∧ nd.take sb.size = sb.bytes := by
  obtain ⟨nd, hnd⟩ := hA.succeeds sb.bytes (sb.size + n) hpos
  have hlen := hs.bytes_length
  have hkeeps := A.realloc_keeps _ _ _ hnd (by omega)
  rw [hlen] at hkeeps
  refine ⟨nd, ?_, A.realloc_length _ _ _ hnd, hkeeps⟩
  simp only [tntBufResize, hs.contents, bind, Option.bind_some, hnd, pure]

/-- Nothing asked for in an empty stream: `NULL`, and it stays empty. -/
theorem tntBufResize_nothing {A : Allocator} (hA : A.Lasts) {sb : StreamBuf} (hs : sb.Full)
    (hzero : sb.size = 0) : tntBufResize A sb 0 = some (false, sb) := by
  have hnull : sb.data = .null := by
    rcases hs.block with ⟨hd, -⟩ | ⟨mem, -, -, hpos⟩
    · exact hd
    · omega
  have hfree : { sb with data := sb.data.free } = sb := by
    rw [hnull]
    cases sb
    simp_all [Block.free]
  simp only [tntBufResize, hs.contents, bind, Option.bind_some, hzero, hA.zero, pure]
  rw [← hzero, hfree]

/-- The buffer once `src` has been appended. -/
def StreamBuf.grown (sb : StreamBuf) (src : Bytes) : StreamBuf :=
  { sb with
    data := .live (sb.bytes ++ src), alloc := sb.size + src.length, size := sb.size + src.length }

/-- A store behind the bytes in use. -/
theorem StreamBuf.Full.store_behind {sb : StreamBuf} (hs : sb.Full) {nd src : Bytes}
    (hlen : nd.length = sb.size + src.length) (htake : nd.take sb.size = sb.bytes)
    (hpos : 0 < sb.size + src.length) :
    (Block.live nd).store sb.size src = some (.live (sb.bytes ++ src)) ∧ (sb.grown src).Full ∧
      (sb.grown src).bytes = sb.bytes ++ src := by
  have hfit : sb.size + src.length ≤ nd.length := by omega
  have hwrite : overwrite nd sb.size src = sb.bytes ++ src := by
    rw [← htake, ← take_overwrite hfit, List.take_of_length_le]
    rw [overwrite_length hfit, hlen]
  have hbytes : (sb.bytes ++ src).length = sb.size + src.length := by
    rw [List.length_append, hs.bytes_length]
  refine ⟨?_, ⟨hs.owned, Or.inr ⟨_, rfl, hbytes, hpos⟩, ?_⟩, ?_⟩
  · rw [Block.store, if_pos hfit, hwrite]
  · exact hs.rdoff_le.trans (Nat.le_add_right _ _)
  · exact List.take_of_length_le (Nat.le_of_eq hbytes)

/-- **A write appends**, whatever its size.  The return value is -1 where an empty stream is written
nothing.  Memory is there, by hypothesis; without it a write would lose the block. -/
theorem Piece.exec_spec {A : Allocator} (hA : A.Lasts) {s : BufStream} (hs : s.sb.Full)
    (p : Piece) :
    ∃ rv s', p.exec A s = some (rv, s') ∧ s'.sb.Full ∧ s'.sb.bytes = s.sb.bytes ++ p.bytes ∧
      s'.sb.rdoff = s.sb.rdoff ∧ (rv = -1 → p.bytes = []) := by
  have hrv : ∀ {n : Nat}, (n : Int) = -1 → p.bytes = [] := by
    intro n hn
    omega
  by_cases hpos : 0 < s.sb.size + p.bytes.length
  · obtain ⟨nd, hres, hlen, htake⟩ := tntBufResize_spec hA hs hpos
    obtain ⟨hstore, hfull, hbytes⟩ := hs.store_behind hlen htake hpos
    cases p with
    | write buf =>
      refine ⟨buf.length, { s with sb := s.sb.grown buf, wrcnt := s.wrcnt + 1 }, ?_, hfull, hbytes,
        rfl, hrv⟩
      simp only [Piece.bytes] at hres hstore
      simp only [Piece.exec, tntBufWrite, hs.owned, hres, bind, Option.bind_some, pure, hstore,
        Bool.false_eq_true, if_false, Bool.not_true]
      simp only [StreamBuf.grown, hs.owned]
    | writev iov =>
      have hsum : (iov.map List.length).sum = iov.flatten.length := by simp [List.length_flatten]
      -- the pieces are stored one behind the other
      have hall := storeAll_eq_store hstore ⟨nd, rfl⟩
      refine ⟨iov.flatten.length, { s with sb := s.sb.grown iov.flatten, wrcnt := s.wrcnt + 1 }, ?_,
        hfull, hbytes, rfl, hrv⟩
      simp only [Piece.bytes] at hres
      simp only [Piece.exec, tntBufWritev, hs.owned, hsum, hres, bind, Option.bind_some, pure, hall,
        Bool.false_eq_true, if_false, Bool.not_true]
      simp only [StreamBuf.grown, hs.owned, Piece.bytes]
  · -- nothing is written to an empty stream: the resize to 0 bytes fails
    have hzero : s.sb.size = 0 := by omega
    have hempty : p.bytes = [] := List.eq_nil_of_length_eq_zero (by omega)
    have hres := tntBufResize_nothing hA hs hzero
    refine ⟨-1, s, ?_, hs, by rw [hempty, List.append_nil], rfl, fun _ => hempty⟩
    cases p with
    | write buf =>
      have hbuf : buf = [] := hempty
      simp only [Piece.exec, tntBufWrite, hs.owned, hbuf, List.length_nil, hres, bind,
        Option.bind_some, pure, Bool.false_eq_true, if_false, Bool.not_false, if_true]
    | writev iov =>
      have hsum : (iov.map List.length).sum = 0 := by
        have hflat : iov.flatten = [] := hempty
        rw [← List.length_flatten, hflat]
        rfl
      simp only [Piece.exec, tntBufWritev, hs.owned, hsum, hres, bind, Option.bind_some, pure,
        Bool.false_eq_true, if_false, Bool.not_false, if_true]

/-! ## §3 — reading.

What the source's `memcpy` does: the reader's bytes go into the stream. -/

/-- Writing nothing changes nothing. -/
theorem overwrite_nil (mem : Bytes) (off : Nat) : overwrite mem off [] = mem := by simp [overwrite]

/-- **What `tnt_buf_read` does**: the cursor moves over what is asked for and there, and the front
of the caller's buffer replaces it. -/
theorem tntBufRead_spec {s : BufStream} (hs : s.sb.Full) (buf : Bytes) :
    ∃ s', tntBufRead s buf = some (((min buf.length (s.sb.size - s.sb.rdoff) : Nat) : Int), buf, s') ∧
      s'.sb.Full ∧
      s'.sb.bytes =
        overwrite s.sb.bytes s.sb.rdoff (buf.take (min buf.length (s.sb.size - s.sb.rdoff))) ∧
      s'.sb.rdoff = s.sb.rdoff + min buf.length (s.sb.size - s.sb.rdoff) := by
  have hrd := hs.rdoff_le
  by_cases hend : s.sb.size = s.sb.rdoff
  · -- nothing there
    have hzero : min buf.length (s.sb.size - s.sb.rdoff) = 0 := by omega
    rw [hzero, List.take_zero, overwrite_nil]
    refine ⟨s, ?_, hs, rfl, rfl⟩
    rw [tntBufRead, if_pos hend, ite_self]
    rfl
  · rcases hs.block with ⟨-, hsize⟩ | ⟨mem, hd, hlen, hpos⟩
    · omega
    · set n := min buf.length (s.sb.size - s.sb.rdoff) with hn
      have hbytes : s.sb.bytes = mem := by
        rw [StreamBuf.bytes, hd]
        exact List.take_of_length_le (by omega)
      have hcount : (if buf.length > s.sb.size - s.sb.rdoff then s.sb.size - s.sb.rdoff
          else buf.length) = n := by
        split_ifs <;> omega
      have htake : (buf.take n).length = n := by
        rw [List.length_take]
        omega
      have hfit : s.sb.rdoff + (buf.take n).length ≤ mem.length := by omega
      have hwrite := overwrite_length hfit
      refine ⟨{ s with sb := { s.sb with
        data := .live (overwrite mem s.sb.rdoff (buf.take n)), rdoff := s.sb.rdoff + n } },
        ?_, ⟨hs.owned, Or.inr ⟨_, rfl, by rw [hwrite, hlen], hpos⟩, ?_⟩, ?_, rfl⟩
      · have hlive : ¬ s.sb.data = .null := by simp [hd]
        rw [tntBufRead, if_neg hlive, if_neg hend]
        simp only [hcount, hd, Block.store, if_pos hfit, bind, Option.bind_some, pure]
      · show s.sb.rdoff + n ≤ s.sb.size
        omega
      · rw [hbytes]
        exact List.take_of_length_le (by rw [hwrite, hlen])

/-! ## §4 — runs of writes and reads.

`Seen` goes along with the stream.  The equivalence is by induction on the run, for any stream that
is in order with what was seen. -/

/-- A call on the stream; a reader brings a buffer. -/
inductive BufOp where
  | write (p : Piece)
  | read (buf : Bytes)

/-- A stream with everything its writers have put in and its readers have got. -/
structure Seen where
  s : BufStream
  written : Bytes
  handed : Bytes

/-- A new stream. -/
def Seen.new : Seen := ⟨tntBuf, [], []⟩

/-- Perform a call.  What a read hands over is as much of the caller's buffer as it says. -/
def BufOp.exec (A : Allocator) (x : Seen) : BufOp → Option (Int × Seen)
  | .write p => do
    let (rv, s) ← p.exec A x.s
    return (rv, { x with s := s, written := if rv = -1 then x.written else x.written ++ p.bytes })
  | .read buf => do
    let (rv, buf, s) ← tntBufRead x.s buf
    return (rv, { x with s := s, handed := x.handed ++ buf.take rv.toNat })

/-- What a FIFO promises of a call from `x` to `x'`. -/
structure StepOk (op : BufOp) (x : Seen) (rv : Int) (x' : Seen) : Prop where
  in_order : x'.handed <+: x'.written
  count : ∀ buf, op = .read buf → rv = (min buf.length (x.written.length - x.handed.length) : Nat)
  stored : ∀ buf, op = .read buf → x'.s.sb.bytes = x.s.sb.bytes

/-- **The FIFO law** of a run, each call with the allocator it meets. -/
def Fifo : List (Allocator × BufOp) → Seen → Prop
  | [], _ => True
  | (A, op) :: ops, x => ∃ rv x', op.exec A x = some (rv, x') ∧ StepOk op x rv x' ∧ Fifo ops x'

/-- Every reader of the run brings, in front of its buffer, the bytes it is to get.  `written` are
the bytes written so far, `taken` how many of them have been read. -/
def Primed : List (Allocator × BufOp) → Bytes → Nat → Prop
  | [], _, _ => True
  | (_, .write p) :: ops, written, taken => Primed ops (written ++ p.bytes) taken
  | (_, .read buf) :: ops, written, taken =>
    (written.drop taken).take buf.length <+: buf ∧
      Primed ops written (taken + min buf.length (written.length - taken))

/-- The invariant of a run that has kept the law so far. -/
structure Seen.Inv (x : Seen) : Prop where
  full : x.s.sb.Full
  stored : x.s.sb.bytes = x.written
  taken : x.s.sb.rdoff = x.handed.length
  in_order : x.handed <+: x.written

/-- A new stream has kept the law. -/
theorem Seen.new_inv : Seen.new.Inv := ⟨tntBuf_full, rfl, rfl, List.prefix_rfl⟩

/-- A write keeps the law. -/
theorem exec_write {A : Allocator} (hA : A.Lasts) {x : Seen} (hx : x.Inv) (p : Piece) :
    ∃ rv x', BufOp.exec A x (.write p) = some (rv, x') ∧ StepOk (.write p) x rv x' ∧ x'.Inv ∧
      x'.written = x.written ++ p.bytes ∧ x'.handed = x.handed := by
  obtain ⟨rv, s', hexec, hfull, hbytes, hrd, hfail⟩ := Piece.exec_spec hA hx.full p
  have hwritten : (if rv = -1 then x.written else x.written ++ p.bytes) = x.written ++ p.bytes := by
    by_cases hrv : rv = -1
    · rw [if_pos hrv, hfail hrv, List.append_nil]
    · rw [if_neg hrv]
  have horder : x.handed <+: x.written ++ p.bytes := hx.in_order.trans (List.prefix_append _ _)
  refine ⟨rv, { x with s := s', written := x.written ++ p.bytes }, ?_, ⟨horder, ?_, ?_⟩,
    ⟨hfull, ?_, hrd.trans hx.taken, horder⟩, rfl, rfl⟩
  · simp only [BufOp.exec, hexec, bind, Option.bind_some, pure, hwritten]
  · intro buf hop
    cases hop
  · intro buf hop
    cases hop
  · rw [hbytes, hx.stored]

/-- The front of `buf` is that of `t`, as far as both go. -/
theorem take_prefix_iff {t buf : Bytes} :
    t.take buf.length <+: buf ↔
      buf.take (min buf.length t.length) = t.take (min buf.length t.length) := by
  have htake : t.take buf.length = t.take (min buf.length t.length) := by
    rw [Nat.min_comm]
    by_cases hle : t.length ≤ buf.length
    · rw [Nat.min_eq_left hle, List.take_of_length_le hle, List.take_of_length_le (Nat.le_refl _)]
    · rw [Nat.min_eq_right (by omega)]
  have hlen : (t.take (min buf.length t.length)).length = min buf.length t.length := by
    rw [List.length_take]
    omega
  rw [htake]
  constructor
  · intro h
    rw [List.prefix_iff_eq_take, hlen] at h
    exact h.symm
  · intro h
    rw [← h]
    exact List.take_prefix _ _

/-- **A read keeps the law exactly if its buffer is primed**, and then the invariant too. -/
theorem exec_read (A : Allocator) {x : Seen} (hx : x.Inv) (buf : Bytes) :
    ∃ rv x', BufOp.exec A x (.read buf) = some (rv, x') ∧
      (StepOk (.read buf) x rv x' ↔
        (x.written.drop x.handed.length).take buf.length <+: buf) ∧
      (StepOk (.read buf) x rv x' → x'.Inv) ∧ x'.written = x.written ∧
      x'.handed.length =
        x.handed.length + min buf.length (x.written.length - x.handed.length) := by
  obtain ⟨t, ht⟩ := hx.in_order
  have htlen : x.written.length - x.handed.length = t.length := by
    rw [← ht, List.length_append]
    omega
  have hdrop : x.written.drop x.handed.length = t := by rw [← ht, List.drop_left]
  have hsize := hx.full.bytes_length
  rw [hx.stored] at hsize
  obtain ⟨s', hread, hfull, hbytes, hrd⟩ := tntBufRead_spec hx.full buf
  rw [← hsize, hx.taken, htlen] at hread hbytes hrd
  rw [hx.stored] at hbytes
  rw [hdrop, htlen, take_prefix_iff]
  set n := min buf.length t.length with hn
  have hnlen : (buf.take n).length = n := by
    rw [List.length_take]
    omega
  have hexec : BufOp.exec A x (.read buf) =
      some ((n : Int), { x with s := s', handed := x.handed ++ buf.take n }) := by
    simp only [BufOp.exec, hread, bind, Option.bind_some, pure, Int.toNat_natCast]
  -- what is handed over is in order exactly if it is what was to be read
  have horder : x.handed ++ buf.take n <+: x.written ↔ buf.take n = t.take n := by
    rw [← ht, List.prefix_append_right_inj, List.prefix_iff_eq_take, hnlen]
  have hsame : buf.take n = t.take n → s'.sb.bytes = x.written := by
    intro hprimed
    rw [hbytes, hprimed, ← ht, overwrite, List.take_left, ← List.drop_drop, List.drop_left]
    rw [← hprimed, hnlen, hprimed, List.take_append_drop]
  refine ⟨n, _, hexec, ⟨fun hok => horder.mp hok.in_order, ?_⟩, ?_, rfl, ?_⟩
  · intro hprimed
    refine ⟨horder.mpr hprimed, ?_, ?_⟩
    · intro buf' hop
      cases hop
      rw [htlen]
    · intro buf' hop
      show s'.sb.bytes = x.s.sb.bytes
      rw [hsame hprimed, hx.stored]
  · intro hok
    refine ⟨hfull, hsame (horder.mp hok.in_order), ?_, hok.in_order⟩
    show s'.sb.rdoff = (x.handed ++ buf.take n).length
    rw [hrd, List.length_append, hnlen]
  · show (x.handed ++ buf.take n).length = _
    rw [List.length_append, hnlen]

/-- A run from a state that has kept the law. -/
theorem fifo_iff_primed {ops : List (Allocator × BufOp)} (hA : ∀ o ∈ ops, o.1.Lasts) {x : Seen}
    (hx : x.Inv) : Fifo ops x ↔ Primed ops x.written x.handed.length := by
  induction ops generalizing x with
  | nil => exact Iff.rfl
  | cons o ops ih =>
    obtain ⟨A, op⟩ := o
    have hrest : ∀ o ∈ ops, o.1.Lasts := fun o ho => hA o (by simp [ho])
    cases op with
    | write p =>
      have hlasts := hA (A, .write p) (by simp)
      obtain ⟨rv, x', hexec, hok, hinv, hwritten, hhanded⟩ := exec_write hlasts hx p
      have hih := ih hrest hinv
      rw [hwritten, hhanded] at hih
      -- a write always keeps the law
      rw [Primed, ← hih, Fifo]
      constructor
      · rintro ⟨rv₁, x₁, hexec₁, -, hfifo⟩
        rw [hexec] at hexec₁
        obtain ⟨rfl, rfl⟩ := Prod.mk.inj (Option.some.inj hexec₁)
        exact hfifo
      · intro hfifo
        exact ⟨rv, x', hexec, hok, hfifo⟩
    | read buf =>
      obtain ⟨rv, x', hexec, hiff, hkeeps, hwritten, hhanded⟩ := exec_read A hx buf
      -- a read keeps it exactly if the buffer held the bytes already
      rw [Primed, ← hiff, ← hhanded, ← hwritten, Fifo]
      constructor
      · rintro ⟨rv₁, x₁, hexec₁, hok, hfifo⟩
        rw [hexec] at hexec₁
        obtain ⟨rfl, rfl⟩ := Prod.mk.inj (Option.some.inj hexec₁)
        exact ⟨hok, (ih hrest (hkeeps hok)).mp hfifo⟩
      · rintro ⟨hok, hprimed⟩
        exact ⟨rv, x', hexec, hok, (ih hrest (hkeeps hok)).mpr hprimed⟩

/-- **When a `tnt_buf` is a FIFO**: a run of writes, vector writes and reads keeps the law exactly
if every reader's buffer already holds the bytes it is to get.  The read of a `tnt_buf` copies in
the wrong direction: the bytes to be handed out are overwritten by what the caller's buffer holds.
It does no harm only where both are the same already, and the condition says so of every read of the
run, in terms of the bytes written so far. -/
theorem tntBuf_fifo_iff (ops : List (Allocator × BufOp)) (hA : ∀ o ∈ ops, o.1.Lasts) :
    Fifo ops .new ↔ Primed ops [] 0 :=
  fifo_iff_primed hA Seen.new_inv

/-- `custom_realloc` on a fresh process. -/
def Allocator.custom : Allocator where
  realloc old n := if n = 0 then none else Allocator.zeroing.realloc old n
  realloc_length old n new h := by
    split_ifs at h
    exact Allocator.zeroing.realloc_length old n new h
  realloc_keeps old n new h := by
    split_ifs at h
    exact Allocator.zeroing.realloc_keeps old n new h

/-- The allocator of the library, on a process with memory left. -/
theorem Allocator.custom_lasts : Allocator.custom.Lasts where
  succeeds old n hpos := ⟨_, if_neg (by omega)⟩
  zero _ := rfl

/-- Two writes and a read whose buffer is primed. -/
theorem tntBuf_fifo_writes :
    Fifo [(.custom, .write (.write [1, 2])), (.custom, .write (.writev [[3], []])),
      (.custom, .read [1, 2])] .new :=
  (tntBuf_fifo_iff _ (by
    intro o ho
    rcases List.mem_cons.mp ho with rfl | ho
    · exact Allocator.custom_lasts
    rcases List.mem_cons.mp ho with rfl | ho
    · exact Allocator.custom_lasts
    rw [List.mem_singleton.mp ho]
    exact Allocator.custom_lasts)).mpr (by simp [Primed, Piece.bytes])

/-- Two bytes are written; a reader with a zeroed buffer says it got two bytes, and has zeroed the
stream. -/
theorem tntBuf_read_not_fifo :
    (∃ x, BufOp.exec .custom ⟨{ tntBuf with sb := tntBuf.sb.grown [1, 2], wrcnt := 1 }, [1, 2], []⟩
        (.read [0, 0]) = some (2, x) ∧ x.handed = [0, 0] ∧ x.s.sb.bytes = [0, 0]) ∧
      ¬ Fifo [(.custom, .write (.write [1, 2])), (.custom, .read [0, 0])] .new := by
  refine ⟨⟨_, rfl, rfl, rfl⟩, ?_⟩
  rw [fifo_iff_primed ?_ Seen.new_inv]
  · simp [Primed, Piece.bytes, Seen.new]
  · intro o ho
    rcases List.mem_cons.mp ho with rfl | ho
    · exact Allocator.custom_lasts
    rw [List.mem_singleton.mp ho]
    exact Allocator.custom_lasts

end TarantoolC
