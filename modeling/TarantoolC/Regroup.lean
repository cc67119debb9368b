/-
# TarantoolC.Regroup — digits of one width, read as digits of ANOTHER.

A row of digits of `w` bits each, the highest bit first, is a row of bits (`spread`).  A coder from
one width to another keeps that row as it is: it cuts it elsewhere.  `carry` is what a coder needs of
the arithmetic: a digit with some bits kept over from before it.

The row of bits is enough: what one coder has cut, another one can put together again
(`prefix_of_spread`).

Nothing here names a program.

Why bits and not numbers: a coder takes digits one at a time, and between two of them it holds back
some bits of the last one.  As numbers, the digits so far and the digits written have no simple
relation; as rows of bits, the second row is a beginning of the first, and what is held back is the
difference.  That is an invariant which one digit keeps by `carry` alone.
-/
import Mathlib

namespace TarantoolC.Regroup

/-! ## §1 — one digit. -/

/-- The lowest `w` bits of a number, the highest first. -/
def bits : Nat → Nat → List Bool
  | 0, _ => []
  | w + 1, n => n.testBit w :: bits w n

/-- No bits. -/
@[simp] theorem bits_zero (n : Nat) : bits 0 n = [] := rfl

/-- As many bits as were asked for. -/
@[simp] theorem bits_length (w n : Nat) : (bits w n).length = w := by
  induction w with
  | zero => rfl
  | succ w ih => rw [bits, List.length_cons, ih]

/-- The lowest bits of a number are a matter of those bits. -/
theorem bits_congr {w m n : Nat} (h : ∀ i < w, m.testBit i = n.testBit i) :
    bits w m = bits w n := by
  induction w with
  | zero => rfl
  | succ w ih =>
    rw [bits, bits, h w (Nat.lt_succ_self w), ih fun i hi => h i (Nat.lt_succ_of_lt hi)]

/-- A number in two parts. -/
theorem bits_append (a b x : Nat) {y : Nat} (hy : y < 2 ^ b) :
    bits (a + b) (2 ^ b * x + y) = bits a x ++ bits b y := by
  induction a with
  | zero =>
    rw [Nat.zero_add, bits_zero, List.nil_append]
    refine bits_congr fun i hi => ?_
    rw [Nat.testBit_two_pow_mul_add x hy, if_pos hi]
  | succ a ih =>
    have htop : (2 ^ b * x + y).testBit (a + b) = x.testBit a := by
      rw [Nat.testBit_two_pow_mul_add x hy, if_neg (by omega), Nat.add_sub_cancel]
    rw [Nat.succ_add, bits, bits, htop, ih, List.cons_append]

/-- The bits say what the number is. -/
theorem bits_inj {w m n : Nat} (hm : m < 2 ^ w) (hn : n < 2 ^ w) (h : bits w m = bits w n) :
    m = n := by
  induction w generalizing m n with
  | zero =>
    rw [Nat.pow_zero] at hm hn
    omega
  | succ w ih =>
    rw [bits, bits, List.cons.injEq] at h
    obtain ⟨htop, hlow⟩ := h
    have hmod : ∀ k, bits w k = bits w (k % 2 ^ w) := fun k =>
      bits_congr fun i hi => by rw [Nat.testBit_mod_two_pow, decide_eq_true hi, Bool.true_and]
    have hrest : m % 2 ^ w = n % 2 ^ w := by
      refine ih (Nat.mod_lt _ (Nat.two_pow_pos w)) (Nat.mod_lt _ (Nat.two_pow_pos w)) ?_
      rw [← hmod, ← hmod, hlow]
    refine Nat.eq_of_testBit_eq fun i => ?_
    rcases Nat.lt_trichotomy i w with hlt | rfl | hgt
    · have hi := congrArg (fun k => Nat.testBit k i) hrest
      simpa only [Nat.testBit_mod_two_pow, decide_eq_true hlt, Bool.true_and] using hi
    · exact htop
    · have hpow : 2 ^ (w + 1) ≤ 2 ^ i := Nat.pow_le_pow_right (by omega) hgt
      rw [Nat.testBit_lt_two_pow (by omega), Nat.testBit_lt_two_pow (by omega)]

/-- **A digit behind some bits**: with `k` bits kept over, a digit of `a + b` bits gives one of
`k + a` bits, and `b` bits are kept over again. -/
theorem carry (k a b x y : Nat) (hy : y < 2 ^ (a + b)) :
    bits k x ++ bits (a + b) y = bits (k + a) (2 ^ a * x + y / 2 ^ b) ++ bits b (y % 2 ^ b) := by
  have hhigh : y / 2 ^ b < 2 ^ a := by
    rw [Nat.div_lt_iff_lt_mul (Nat.two_pow_pos b), ← Nat.pow_add]
    exact hy
  have hsplit : bits (a + b) y = bits a (y / 2 ^ b) ++ bits b (y % 2 ^ b) := by
    rw [← bits_append a b _ (Nat.mod_lt _ (Nat.two_pow_pos b)), Nat.div_add_mod]
  rw [hsplit, bits_append k a x hhigh, List.append_assoc]

/-! ## §2 — a row of digits. -/

/-- The bits of a row of digits. -/
def spread (w : Nat) (xs : List Nat) : List Bool := xs.flatMap (bits w)

/-- No digits have no bits. -/
@[simp] theorem spread_nil (w : Nat) : spread w [] = [] := rfl

/-- Rows of digits are put together bit by bit. -/
theorem spread_append (w : Nat) (xs ys : List Nat) :
    spread w (xs ++ ys) = spread w xs ++ spread w ys := List.flatMap_append

/-- The first digit has the first bits. -/
theorem spread_cons (w x : Nat) (xs : List Nat) :
    spread w (x :: xs) = bits w x ++ spread w xs := List.flatMap_cons

/-- One digit. -/
theorem spread_singleton (w x : Nat) : spread w [x] = bits w x := by
  rw [spread_cons, spread_nil, List.append_nil]

/-- Every digit has the same number of bits. -/
@[simp] theorem spread_length (w : Nat) (xs : List Nat) : (spread w xs).length = w * xs.length := by
  induction xs with
  | nil => rw [spread_nil, List.length_nil, List.length_nil, Nat.mul_zero]
  | cons x xs ih => rw [spread_cons, List.length_append, bits_length, ih, List.length_cons]; ring

/-- **The bits of whole digits say what the digits are**, also where bits that are no whole digit
are behind them. -/
theorem prefix_of_spread {w : Nat} {xs ys : List Nat} {t : List Bool} (hxs : ∀ x ∈ xs, x < 2 ^ w)
    (hys : ∀ y ∈ ys, y < 2 ^ w) (ht : t.length < w) (h : spread w xs <+: spread w ys ++ t) :
    xs <+: ys := by
  induction xs generalizing ys with
  | nil => exact List.nil_prefix
  | cons x xs ih =>
    cases ys with
    | nil =>
      -- a whole digit does not fit into `t`
      have hlen := h.length_le
      rw [spread_nil, List.nil_append, spread_length, List.length_cons, Nat.mul_succ] at hlen
      omega
    | cons y ys =>
      rw [spread_cons, spread_cons, List.append_assoc] at h
      obtain ⟨r, hr⟩ := h
      rw [List.append_assoc] at hr
      obtain ⟨hfirst, hrest⟩ :=
        List.append_inj hr (by rw [bits_length, bits_length])
      have hxy : x = y := bits_inj (hxs x List.mem_cons_self) (hys y List.mem_cons_self) hfirst
      rw [hxy, List.cons_prefix_cons]
      exact ⟨rfl, ih (fun z hz => hxs z (List.mem_cons_of_mem x hz))
        (fun z hz => hys z (List.mem_cons_of_mem y hz)) ⟨r, hrest⟩⟩

end TarantoolC.Regroup
