/-
# TarantoolC.Blocks — input that is taken in BLOCKS.

A machine works on blocks of `n` elements and is fed in pieces of any length.  It goes over a block
as soon as the block is full, and keeps the elements behind the last whole block.

`feed` is the machine one element at a time, so that where the pieces are cut is of no account
(`feed_append`).  What code does instead is fill up the block at hand (`feed_fill`), go over whole
blocks where they lie (`feed_block`) and keep what is left (`feed_short`); `feed_eq_blocks` says what
it has done in the end.

Nothing here names a program.

What it is for: a C function that hashes or encodes a stream has one loop over whole blocks and some
care at both ends of a piece.  Its invariant is always the same, that the state is that of the
blocks so far and the buffer has what is behind them; with `Fed` as the abstract state the invariant
is a relation between a context and a `Fed`, and a call of the function is shown to be a `feed` by
the three lemmas above, one for each part of the function.  Cutting a stream into pieces is then a
statement about `feed` alone.
-/
import Mathlib

namespace TarantoolC.Blocks

/-! ## §1 — the machine. -/

/-- The machine between two elements: the state after the blocks so far, and what is behind them. -/
@[ext] structure Fed (σ α : Type) where
  state : σ
  pending : List α

section Machine

variable {σ α : Type} (n : Nat) (f : σ → List α → σ)

/-- One element. -/
def push (m : Fed σ α) (x : α) : Fed σ α :=
  if m.pending.length + 1 = n then ⟨f m.state (m.pending ++ [x]), []⟩
  else ⟨m.state, m.pending ++ [x]⟩

/-- A piece. -/
def feed (m : Fed σ α) (xs : List α) : Fed σ α := xs.foldl (push n f) m

/-- The whole blocks of a list. -/
def blocks (xs : List α) : List (List α) :=
  (List.range (xs.length / n)).map fun i => (xs.drop (i * n)).take n

/-- What is behind them. -/
def rest (xs : List α) : List α := xs.drop (xs.length / n * n)

end Machine

/-! ## §2 — pieces. -/

section Pieces

variable {σ α : Type} {n : Nat} {f : σ → List α → σ} {m : Fed σ α}

/-- An empty piece changes nothing. -/
@[simp] theorem feed_nil : feed n f m [] = m := rfl

/-- **Where the pieces are cut is of no account.** -/
theorem feed_append (xs ys : List α) : feed n f m (xs ++ ys) = feed n f (feed n f m xs) ys :=
  List.foldl_append

/-- An element that does not fill its block is kept. -/
theorem push_of_lt {x : α} (h : m.pending.length + 1 < n) :
    push n f m x = ⟨m.state, m.pending ++ [x]⟩ := by
  rw [push, if_neg (by omega)]

/-- Less than what is missing is kept. -/
theorem feed_short {xs : List α} (h : m.pending.length + xs.length < n) :
    feed n f m xs = ⟨m.state, m.pending ++ xs⟩ := by
  induction xs generalizing m with
  | nil => rw [feed_nil, List.append_nil]
  | cons x xs ih =>
    rw [List.length_cons] at h
    have hx : push n f m x = ⟨m.state, m.pending ++ [x]⟩ := push_of_lt (by omega)
    have hlen : (m.pending ++ [x]).length = m.pending.length + 1 := by simp
    calc feed n f m (x :: xs) = feed n f (push n f m x) xs := rfl
      _ = feed n f ⟨m.state, m.pending ++ [x]⟩ xs := by rw [hx]
      _ = ⟨m.state, (m.pending ++ [x]) ++ xs⟩ := ih (by show (m.pending ++ [x]).length + _ < n; omega)
      _ = ⟨m.state, m.pending ++ x :: xs⟩ := by rw [List.append_assoc]; rfl

/-- Exactly what is missing fills the block. -/
theorem feed_fill {xs : List α} (hne : xs ≠ []) (h : m.pending.length + xs.length = n) :
    feed n f m xs = ⟨f m.state (m.pending ++ xs), []⟩ := by
  obtain ⟨ys, y, rfl⟩ := (List.eq_nil_or_concat' xs).resolve_left hne
  rw [List.length_append, List.length_singleton] at h
  -- all but the last element are kept
  have hkept : feed n f m ys = ⟨m.state, m.pending ++ ys⟩ := feed_short (by omega)
  have hlen : (m.pending ++ ys).length + 1 = n := by rw [List.length_append]; omega
  rw [feed_append, hkept]
  show push n f ⟨m.state, m.pending ++ ys⟩ y = _
  rw [push, if_pos hlen, List.append_assoc]

/-- A whole block, where nothing is pending. -/
theorem feed_block {s : σ} {xs : List α} (hn : 0 < n) (h : xs.length = n) :
    feed n f ⟨s, []⟩ xs = ⟨f s xs, []⟩ := by
  have hne : xs ≠ [] := by
    rintro rfl
    simp only [List.length_nil] at h
    omega
  have hfill := @feed_fill σ α n f ⟨s, []⟩ xs hne (by simpa using h)
  simpa using hfill

/-- More than what is missing, but not another block. -/
theorem feed_over {xs : List α} (hm : m.pending.length < n) (hge : n ≤ m.pending.length + xs.length)
    (hlt : m.pending.length + xs.length < 2 * n) :
    feed n f m xs = ⟨f m.state (m.pending ++ xs.take (n - m.pending.length)),
      xs.drop (n - m.pending.length)⟩ := by
  have htake : (xs.take (n - m.pending.length)).length = n - m.pending.length := by
    rw [List.length_take]
    omega
  have hne : xs.take (n - m.pending.length) ≠ [] := by
    intro hnil
    rw [hnil, List.length_nil] at htake
    omega
  calc feed n f m xs
      = feed n f (feed n f m (xs.take (n - m.pending.length))) (xs.drop (n - m.pending.length)) := by
        rw [← feed_append, List.take_append_drop]
    _ = feed n f ⟨f m.state (m.pending ++ xs.take (n - m.pending.length)), []⟩
          (xs.drop (n - m.pending.length)) := by rw [feed_fill hne (by omega)]
    _ = ⟨f m.state (m.pending ++ xs.take (n - m.pending.length)), xs.drop (n - m.pending.length)⟩ :=
        feed_short (by rw [List.length_drop, List.length_nil]; omega)

/-- What is pending never fills a block. -/
theorem feed_pending_length (hm : m.pending.length < n) (xs : List α) :
    (feed n f m xs).pending.length = (m.pending.length + xs.length) % n := by
  induction xs generalizing m with
  | nil => rw [feed_nil, List.length_nil, Nat.add_zero, Nat.mod_eq_of_lt hm]
  | cons x xs ih =>
    show (feed n f (push n f m x) xs).pending.length = _
    rw [List.length_cons]
    by_cases hfull : m.pending.length + 1 = n
    · have hx : (push n f m x).pending = [] := by rw [push, if_pos hfull]
      rw [ih (by rw [hx, List.length_nil]; omega), hx, List.length_nil, Nat.zero_add,
        show m.pending.length + (xs.length + 1) = xs.length + n by omega, Nat.add_mod_right]
    · have hx : (push n f m x).pending = m.pending ++ [x] := by rw [push, if_neg hfull]
      have hlen : (m.pending ++ [x]).length = m.pending.length + 1 := by simp
      rw [ih (by rw [hx, hlen]; omega), hx, hlen]
      congr 1
      omega

/-! ## §3 — the whole input. -/

/-- One more element behind a list: a block more, or a longer rest. -/
theorem blocks_concat (hn : 0 < n) (xs : List α) (x : α) :
    (if (rest n xs).length + 1 = n
      then blocks n (xs ++ [x]) = blocks n xs ++ [rest n xs ++ [x]] ∧ rest n (xs ++ [x]) = []
      else blocks n (xs ++ [x]) = blocks n xs ∧ rest n (xs ++ [x]) = rest n xs ++ [x]) := by
  have hdiv : xs.length / n * n ≤ xs.length := Nat.div_mul_le_self _ _
  have hmod := Nat.div_add_mod' xs.length n
  have hlt := Nat.mod_lt xs.length hn
  have hrest : (rest n xs).length = xs.length % n := by rw [rest, List.length_drop]; omega
  have hlen : (xs ++ [x]).length = xs.length + 1 := by simp
  -- the blocks that were there before are as they were
  have hold : ∀ i < xs.length / n, ((xs ++ [x]).drop (i * n)).take n = (xs.drop (i * n)).take n := by
    intro i hi
    have hle : (i + 1) * n ≤ xs.length / n * n := Nat.mul_le_mul_right n hi
    rw [Nat.succ_mul] at hle
    rw [List.drop_append_of_le_length (by omega), List.take_append_of_le_length]
    rw [List.length_drop]
    omega
  have hsame : (List.range (xs.length / n)).map (fun i => ((xs ++ [x]).drop (i * n)).take n) =
      blocks n xs := List.map_congr_left fun i hi => hold i (List.mem_range.mp hi)
  have hdrop : (xs ++ [x]).drop (xs.length / n * n) = rest n xs ++ [x] :=
    List.drop_append_of_le_length hdiv
  rw [hrest]
  by_cases hfull : xs.length % n + 1 = n
  · rw [if_pos hfull]
    have hnum : (xs.length + 1) / n = xs.length / n + 1 := by
      rw [Nat.div_eq_iff hn, Nat.succ_mul]
      omega
    refine ⟨?_, ?_⟩
    · rw [blocks, hlen, hnum, List.range_succ, List.map_append, hsame, List.map_singleton, hdrop,
        List.take_of_length_le]
      rw [List.length_append, hrest, List.length_singleton]
      omega
    · rw [rest, hlen, hnum, Nat.succ_mul]
      refine List.drop_eq_nil_of_le ?_
      rw [hlen]
      omega
  · rw [if_neg hfull]
    have hnum : (xs.length + 1) / n = xs.length / n := by
      rw [Nat.div_eq_iff hn]
      omega
    exact ⟨by rw [blocks, hlen, hnum, hsame], by rw [rest, hlen, hnum, hdrop]⟩

/-- **What the machine has done**: it went over the blocks of the input, in order, and keeps the
rest. -/
theorem feed_eq_blocks (hn : 0 < n) (s : σ) (xs : List α) :
    feed n f ⟨s, []⟩ xs = ⟨(blocks n xs).foldl f s, rest n xs⟩ := by
  induction xs using List.reverseRecOn with
  | nil => simp [blocks, rest]
  | append_singleton xs x ih =>
    have hone := blocks_concat hn xs x
    rw [feed_append, ih]
    show push n f ⟨(blocks n xs).foldl f s, rest n xs⟩ x = _
    by_cases hfull : (rest n xs).length + 1 = n
    · rw [if_pos hfull] at hone
      rw [push, if_pos hfull, hone.1, hone.2, List.foldl_append]
      rfl
    · rw [if_neg hfull] at hone
      rw [push, if_neg hfull, hone.1, hone.2]

/-! ## §4 — a program that is fed. -/

section Runs

variable {γ : Type} {R : γ → List α → Prop} {ok : List α → Prop}

/-- What each piece does to a relation between a program and the input so far, all pieces do, and
the program does not come to nothing. -/
theorem runM_pieces {update : γ → List α → Option γ}
    (hstep : ∀ c xs p, R c xs → ok p → ∃ c', update c p = some c' ∧ R c' (xs ++ p)) {c : γ}
    {xs : List α} (hc : R c xs) (pieces : List (List α)) (hok : ∀ p ∈ pieces, ok p) :
    ∃ c', pieces.foldlM update c = some c' ∧ R c' (xs ++ pieces.flatten) := by
  induction pieces generalizing c xs with
  | nil => exact ⟨c, rfl, by simpa using hc⟩
  | cons p pieces ih =>
    obtain ⟨c₁, hone, hnext⟩ := hstep c xs p hc (hok p List.mem_cons_self)
    obtain ⟨c', hrun, hall⟩ := ih hnext fun q hq => hok q (List.mem_cons_of_mem _ hq)
    rw [List.append_assoc] at hall
    refine ⟨c', ?_, hall⟩
    rw [List.foldlM_cons, hone]
    exact hrun

end Runs

end Pieces

end TarantoolC.Blocks
