/-
# TarantoolC.Object.Grammar — format strings and the values they describe.

`Formatted` is the grammar of the header file, written down without a look at the code: brackets
that match, an even number of values between braces, the specifiers with the C types of their
arguments, `NIL`, and anything else, which is ignored.  A specifier describes its argument as a
NUMBER, not as bytes.

`tntObjectVformat_formatted_iff`: up to eight containers deep, `tnt_object_vformat` leaves the
canonical encodings of the values described if and only if every string and every pair of brackets
has fewer than `2^32` members.  A longer string has no encoding at all; but a map may have up to
`2^32 - 1` PAIRS, and the entries of the stack count its keys and values together, in 32 bits.

## The two readings of a format.

`Formatted f args vs` says that the format describes the values `vs` with these arguments: it is an
inductive relation over the characters, in the words of the header file.  `formatCalls` is what the
code does with the same string.  `Items.scan` connects them, by induction on the relation: what the
scanner calls is a replay of the values, one description after the other.  Its cases share one lemma
for each kind of character (`formatCalls_openArray`, `formatCalls_map` and so on).

## Counters.

A format with `2 ^ 32` values between two brackets makes as many calls, and the counter of the
container starts again at 0.  The bytes are then those of `wrapped`, and may happen to be an
encoding of something else.  The skeleton of a value, its containers without what the leaves are, is
what the brackets of the format say; `Replays.narrow` shows that if the bytes are an encoding with
that skeleton, no counter has wrapped.
-/
import TarantoolC.Object.Scan

namespace TarantoolC.Object

open MsgPack Msgpuck

/-! ## §1 — the grammar.

In the words of the header file, as an inductive relation.  What is between brackets is a sequence
of items, and an item of no meaning (a comma, a blank) describes nothing. -/

/-- An integer as the format has it: negative or not. -/
def integer (z : Int) : Value := if z < 0 then .int z else .uint z.toNat

section Grammar

variable (toFloat : UInt64 → UInt32)

/-- A specifier (without its `%`), arguments of its C types, and the value described.  What is
shorter than `int` arrives as `int`; the memory of a string goes on behind its end. -/
inductive Specifier : List Char → List VaArg → Value → Prop
  | int {s} (h : s ∈ [['d'], ['i'], ['h', 'd'], ['h', 'i'], ['h', 'h', 'd'], ['h', 'h', 'i']])
      (v : Int32) : Specifier s [.int v] (integer v.toInt)
  | uint (v : UInt32) : Specifier ['u'] [.uint v] (integer v.toNat)
  | ushort {s} (h : s ∈ [['h', 'u'], ['h', 'h', 'u']]) (v : Int32) (hpos : 0 ≤ v.toInt) :
      Specifier s [.int v] (integer v.toInt)
  | long {s} (h : s ∈ [['l', 'd'], ['l', 'i']]) (v : Int64) :
      Specifier s [.long v] (integer v.toInt)
  | ulong (v : UInt64) : Specifier ['l', 'u'] [.ulong v] (integer v.toNat)
  | llong {s} (h : s ∈ [['l', 'l', 'd'], ['l', 'l', 'i']]) (v : Int64) :
      Specifier s [.llong v] (integer v.toInt)
  | ullong (v : UInt64) : Specifier ['l', 'l', 'u'] [.ullong v] (integer v.toNat)
  | float (bits : UInt64) : Specifier ['f'] [.double bits] (.float (toFloat bits).toNat)
  | double (bits : UInt64) : Specifier ['l', 'f'] [.double bits] (.double bits.toNat)
  | bool (v : Int32) : Specifier ['b'] [.int v] (.bool (v ≠ 0))
  | str (s rest : Bytes) (h : 0 ∉ s) : Specifier ['s'] [.str (s ++ 0 :: rest)] (.str s)
  | strn (s rest : Bytes) (len : UInt32) (h : len.toNat = s.length) :
      Specifier ['.', '*', 's'] [.uint len, .str (s ++ rest)] (.str s)
  | strnInt (s rest : Bytes) (len : Int32) (h : len.toInt = s.length) :
      Specifier ['.', '*', 's'] [.int len, .str (s ++ rest)] (.str s)

/-- A character that is passed over where it stands. -/
def Ignored : List Char → Prop
  | [] => False
  | c :: f => c ∉ ['[', ']', '{', '}', '%'] ∧ ¬ ['N', 'I', 'L'] <+: c :: f

/-- `Items f args vs f' args'`: the format from `f` to `f'` describes the values `vs`, with the
arguments from `args` to `args'`. -/
inductive Items : List Char → List VaArg → List Value → List Char → List VaArg → Prop
  | stop (f args) : Items f args [] f args
  | skip {c f args vs f' args'} (h : Ignored (c :: f)) (hs : Items f args vs f' args') :
      Items (c :: f) args vs f' args'
  | percent {f args vs f' args'} (hs : Items f args vs f' args') :
      Items ('%' :: '%' :: f) args vs f' args'
  | nil {f args vs f' args'} (hs : Items f args vs f' args') :
      Items ('N' :: 'I' :: 'L' :: f) args (.nil :: vs) f' args'
  | value {s as v f args vs f' args'} (h : Specifier toFloat s as v) (hs : Items f args vs f' args') :
      Items ('%' :: (s ++ f)) (as ++ args) (v :: vs) f' args'
  | array {xs f args f₁ args₁ vs f' args'} (hx : Items f args xs (']' :: f₁) args₁)
      (hs : Items f₁ args₁ vs f' args') : Items ('[' :: f) args (.array xs :: vs) f' args'
  | map {kvs f args f₁ args₁ vs f' args'} (hx : Items f args (flat kvs) ('}' :: f₁) args₁)
      (hs : Items f₁ args₁ vs f' args') : Items ('{' :: f) args (.map kvs :: vs) f' args'

/-- The format describes the values, and these are its arguments. -/
def Formatted (fmt : List Char) (args : List VaArg) (vs : List Value) : Prop :=
  Items toFloat fmt args vs [] []

variable {toFloat}

/-- Arguments behind those of the format are of no concern. -/
theorem Items.more {f f' : List Char} {args args' : List VaArg} {vs : List Value}
    (h : Items toFloat f args vs f' args') (rest : List VaArg) :
    Items toFloat f (args ++ rest) vs f' (args' ++ rest) := by
  induction h with
  | stop f args => exact .stop f _
  | skip hc _ ih => exact .skip hc ih
  | percent _ ih => exact .percent ih
  | nil _ ih => exact .nil ih
  | value hs _ ih => rw [List.append_assoc]; exact .value hs ih
  | array _ _ ihx ih => exact .array ihx ih
  | map _ _ ihx ih => exact .map ihx ih

/-- What is described ends where it says. -/
theorem Items.suffix {f f' : List Char} {args args' : List VaArg} {vs : List Value}
    (h : Items toFloat f args vs f' args') : f' <:+ f := by
  induction h with
  | stop f args => exact List.suffix_refl f
  | @skip c f _ _ _ _ _ _ ih => exact ih.trans (List.suffix_cons c f)
  | @percent f _ _ _ _ _ ih => exact ih.trans (List.suffix_append ['%', '%'] f)
  | @nil f _ _ _ _ _ ih => exact ih.trans (List.suffix_append ['N', 'I', 'L'] f)
  | @value s _ _ f _ _ _ _ _ _ ih => exact ih.trans (List.suffix_append ('%' :: s) f)
  | @array _ f _ f₁ _ _ _ _ _ _ ihx ih =>
    exact ih.trans (((List.suffix_cons ']' f₁).trans ihx).trans (List.suffix_cons '[' f))
  | @map _ f _ f₁ _ _ _ _ _ _ ihx ih =>
    exact ih.trans (((List.suffix_cons '}' f₁).trans ihx).trans (List.suffix_cons '{' f))

/-- How a description starts; a bracket that opens is closed further on. -/
theorem Items.head {c : Char} {f f' : List Char} {args args' : List VaArg} {vs : List Value}
    (h : Items toFloat (c :: f) args vs f' args') :
    f' = c :: f ∨ Ignored (c :: f) ∨ c ∈ ['%', 'N'] ∨ (c = '[' ∧ ']' ∈ f) ∨ (c = '{' ∧ '}' ∈ f) := by
  generalize hfmt : c :: f = fmt at h
  cases h with
  | stop => exact .inl rfl
  | skip hc _ => exact .inr (.inl hc)
  | percent _ => exact .inr (.inr (.inl (by rw [(List.cons.inj hfmt).1]; decide)))
  | nil _ => exact .inr (.inr (.inl (by rw [(List.cons.inj hfmt).1]; decide)))
  | value _ _ => exact .inr (.inr (.inl (by rw [(List.cons.inj hfmt).1]; decide)))
  | array hx _ =>
    obtain ⟨rfl, rfl⟩ := List.cons.inj hfmt
    exact .inr (.inr (.inr (.inl ⟨rfl, hx.suffix.subset List.mem_cons_self⟩)))
  | map hx _ =>
    obtain ⟨rfl, rfl⟩ := List.cons.inj hfmt
    exact .inr (.inr (.inr (.inr ⟨rfl, hx.suffix.subset List.mem_cons_self⟩)))

/-- What starts with an opening bracket describes nothing, or an array first. -/
theorem Items.array_cases {f f' : List Char} {args args' : List VaArg} {vs : List Value}
    (h : Items toFloat ('[' :: f) args vs f' args') :
    vs = [] ∧ f' = '[' :: f ∨ ∃ xs ws f₁ args₁, vs = .array xs :: ws ∧
      Items toFloat f args xs (']' :: f₁) args₁ := by
  generalize hfmt : '[' :: f = fmt at h
  cases h with
  | stop => exact .inl ⟨rfl, rfl⟩
  | skip hc _ => exact absurd hc.1 (by rw [← (List.cons.inj hfmt).1]; decide)
  | percent _ => exact absurd (List.cons.inj hfmt).1 (by decide)
  | nil _ => exact absurd (List.cons.inj hfmt).1 (by decide)
  | value _ _ => exact absurd (List.cons.inj hfmt).1 (by decide)
  | @array xs _ _ f₁ args₁ ws _ _ hx _ =>
    obtain ⟨-, rfl⟩ := List.cons.inj hfmt
    exact .inr ⟨xs, ws, f₁, args₁, rfl, hx⟩
  | map _ _ => exact absurd (List.cons.inj hfmt).1 (by decide)

/-! ## §2 — the scanner follows the grammar.

The scanner has no stack: brackets are calls like any other, and the object keeps count.  So the
induction over the relation gives a list of calls, and the replay of the values is the same list. -/

/-- A natural number, as an argument. -/
theorem integer_natCast (n : Nat) : integer n = .uint n := by
  rw [integer, if_neg (by omega), Int.toNat_natCast]

/-- `tnt_object_add_int` writes every 64-bit integer as it is. -/
theorem addInt_leafValue (z : Int64) : (Call.addInt z).leafValue = some (integer z.toInt) := by
  rw [Call.leafValue, integer]
  by_cases hneg : z.toInt < 0
  · rw [if_pos hneg, if_pos hneg]
  · have hpos : (0 : Int64) ≤ z := Int64.le_iff_toInt_le.mpr (by simpa using hneg)
    rw [if_neg hneg, if_neg hneg, Int64.toNat_toUInt64_of_le hpos]
    rfl

/-- A non-negative `int` taken as `unsigned int` keeps its value. -/
theorem toUInt32_toNat {v : Int32} (h : 0 ≤ v.toInt) : (v.toUInt32.toNat : Int) = v.toInt := by
  have hpos : (0 : Int32) ≤ v := Int32.le_iff_toInt_le.mpr (by simpa using h)
  rw [Int32.toNat_toUInt32_of_le hpos]
  exact Int.toNat_of_nonneg h

/-- An unsigned argument is added as the number it is. -/
theorem addUint_leafValue (n : UInt64) : (Call.addUint n).leafValue = some (integer n.toNat) := by
  rw [Call.leafValue, integer_natCast]

/-- A string that is short enough is taken whole. -/
theorem strzPrefix_eq {s : Bytes} (h : s.length < 2 ^ 32) : (strzPrefix s).bytes = s := by
  show s.take (UInt32.ofNat s.length).toNat = s
  rw [UInt32.toNat_ofNat_of_lt' h, List.take_length]

/-- A string that ends in a zero byte, ... -/
theorem cstring_eq {s : Bytes} (rest : Bytes) (h : 0 ∉ s) : cstring (s ++ 0 :: rest) = some s := by
  have htake : (s ++ 0 :: rest).takeWhile (· ≠ 0) = s := by
    rw [List.takeWhile_append_of_pos]
    · simp
    · intro b hb
      have hne : b ≠ 0 := by
        rintro rfl
        exact h hb
      simpa using hne
  rw [cstring, if_pos (by simp), htake]

/-- ... and one that is given with its length. -/
theorem counted_eq {s : Bytes} (rest : Bytes) {len : UInt32} (h : len.toNat = s.length) :
    ∃ str, counted len (s ++ rest) = some str ∧ str.bytes = s := by
  unfold counted
  split
  · refine ⟨_, rfl, ?_⟩
    show (s ++ rest).take len.toNat = s
    rw [h, List.take_left]
  · next hno =>
    rw [h, List.length_append] at hno
    omega

/-- A specifier that is scanned takes its arguments and makes one call. -/
theorem Specifier.directive {s : List Char} {as : List VaArg} {v : Value}
    (h : Specifier toFloat s as v) (f : List Char) (args : List VaArg) :
    ∃ call, Object.directive toFloat ('%' :: (s ++ f)) (as ++ args) =
        some (some call, s.length, args) ∧ (v.Fits → call.leafValue = some v) := by
  cases h with
  | int h v =>
    refine ⟨.addInt v.toInt64, ?_, fun _ => ?_⟩
    · simp only [List.mem_cons, List.not_mem_nil, or_false] at h
      rcases h with rfl | rfl | rfl | rfl | rfl | rfl <;> rfl
    · rw [addInt_leafValue, Int32.toInt_toInt64]
  | uint v =>
    refine ⟨.addUint v.toUInt64, rfl, fun _ => ?_⟩
    rw [addUint_leafValue, UInt32.toNat_toUInt64]
  | ushort h v hpos =>
    refine ⟨.addUint v.toUInt32.toUInt64, ?_, fun _ => ?_⟩
    · -- the argument is an `int`, and read as an `unsigned`: the same where it is not negative
      have harg : (VaArg.int v).asUint = some v.toUInt32 := by rw [VaArg.asUint, if_pos hpos]
      simp only [List.mem_cons, List.not_mem_nil, or_false] at h
      rcases h with rfl | rfl
      · simp [Object.directive, conversion, Conv.call, harg]
      · simp [Object.directive, conversion, Conv.call, harg]
    · rw [addUint_leafValue, UInt32.toNat_toUInt64, toUInt32_toNat hpos]
  | long h v =>
    refine ⟨.addInt v, ?_, fun _ => addInt_leafValue v⟩
    simp only [List.mem_cons, List.not_mem_nil, or_false] at h
    rcases h with rfl | rfl <;> rfl
  | ulong v => exact ⟨.addUint v, rfl, fun _ => addUint_leafValue v⟩
  | llong h v =>
    refine ⟨.addInt v, ?_, fun _ => addInt_leafValue v⟩
    simp only [List.mem_cons, List.not_mem_nil, or_false] at h
    rcases h with rfl | rfl <;> rfl
  | ullong v => exact ⟨.addUint v, rfl, fun _ => addUint_leafValue v⟩
  | float bits => exact ⟨.addFloat (toFloat bits), rfl, fun _ => rfl⟩
  | double bits => exact ⟨.addDouble bits, rfl, fun _ => rfl⟩
  | bool v =>
    refine ⟨.addBool (if v = 0 then 0 else 1), rfl, fun _ => ?_⟩
    rw [Call.leafValue]
    by_cases hv : v = 0
    · simp [hv]
    · simp [hv]
  | str s rest h =>
    refine ⟨.addStr (strzPrefix s), ?_, ?_⟩
    · simp [Object.directive, conversion, Conv.call, cstring_eq rest h]
    · intro hfits
      rw [Call.leafValue, strzPrefix_eq hfits]
  | strn s rest len h =>
    obtain ⟨str, hstr, hbytes⟩ := counted_eq rest h
    refine ⟨.addStr str, ?_, fun _ => ?_⟩
    · simp [Object.directive, conversion, Conv.call, VaArg.asUint, hstr]
    · rw [Call.leafValue, hbytes]
  | strnInt s rest len h =>
    -- the length is an `int` here
    have harg : (VaArg.int len).asUint = some len.toUInt32 := by
      rw [VaArg.asUint, if_pos (by omega)]
    have hlen : len.toUInt32.toNat = s.length := by
      have hsame := toUInt32_toNat (v := len) (by omega)
      omega
    obtain ⟨str, hstr, hbytes⟩ := counted_eq rest hlen
    refine ⟨.addStr str, ?_, fun _ => ?_⟩
    · simp [Object.directive, conversion, Conv.call, harg, hstr]
    · rw [Call.leafValue, hbytes]

/-- A character that is ignored makes no call. -/
theorem Ignored.directive {c : Char} {f : List Char} (h : Ignored (c :: f)) (args : List VaArg) :
    Object.directive toFloat (c :: f) args = some (none, 0, args) := by
  obtain ⟨hc, hnil⟩ := h
  simp only [List.mem_cons, List.not_mem_nil, or_false, not_or] at hc
  unfold Object.directive
  split
  · next heq => exact absurd (List.cons.inj heq).1 hc.1
  · next heq => exact absurd (List.cons.inj heq).1 hc.2.2.1
  · next heq => exact absurd (List.cons.inj heq).1 hc.2.1
  · next heq => exact absurd (List.cons.inj heq).1 hc.2.2.2.1
  · next heq => exact absurd (List.cons.inj heq).1 hc.2.2.2.2
  · next rest heq =>
    rw [heq] at hnil
    exact absurd ⟨rest, rfl⟩ hnil
  · rfl

variable (toFloat) in
/-- What the scanner makes of the rest, with the calls `calls` in front. -/
def scanBehind (calls : List Call) (f : List Char) (args : List VaArg) :
    Option (List Call × List VaArg) :=
  (formatCalls toFloat f 0 args).map fun p => (calls ++ p.1, p.2)

/-- Scanning with no call made yet, ... -/
theorem scanBehind_nil (f : List Char) (args : List VaArg) :
    formatCalls toFloat f 0 args = scanBehind toFloat [] f args := by
  simp [scanBehind]

/-- ... and going on behind some calls. -/
theorem scanBehind_trans {xs ys : List Call} {f f' : List Char} {args args' : List VaArg}
    (h : formatCalls toFloat f 0 args = scanBehind toFloat ys f' args') :
    scanBehind toFloat xs f args = scanBehind toFloat (xs ++ ys) f' args' := by
  rw [scanBehind, h, scanBehind, scanBehind, Option.map_map]
  congr 1
  funext p
  simp

/-- One turn of the scanner. -/
theorem formatCalls_directive {c : Char} {s f : List Char} {args args' : List VaArg}
    {call : Option Call}
    (h : Object.directive toFloat (c :: (s ++ f)) args = some (call, s.length, args')) :
    formatCalls toFloat (c :: (s ++ f)) 0 args = scanBehind toFloat call.toList f args' := by
  rw [formatCalls]
  simp only [h, bind, Option.bind_some, formatCalls_skip, scanBehind]
  cases formatCalls toFloat f 0 args' <;> rfl

/-- `NIL`. -/
theorem formatCalls_nil (f : List Char) (args : List VaArg) :
    formatCalls toFloat ('N' :: 'I' :: 'L' :: f) 0 args = scanBehind toFloat [.addNil] f args :=
  @formatCalls_directive toFloat 'N' ['I', 'L'] f args args (some .addNil) rfl

/-- `%%`. -/
theorem formatCalls_percent (f : List Char) (args : List VaArg) :
    formatCalls toFloat ('%' :: '%' :: f) 0 args = scanBehind toFloat [] f args :=
  @formatCalls_directive toFloat '%' ['%'] f args args none rfl

/-- The brackets. -/
theorem formatCalls_openArray (f : List Char) (args : List VaArg) :
    formatCalls toFloat ('[' :: f) 0 args = scanBehind toFloat [.addArray 0] f args :=
  @formatCalls_directive toFloat '[' [] f args args (some (.addArray 0)) rfl

/-- Each of the four brackets is a call: one that opens a map, ... -/
theorem formatCalls_openMap (f : List Char) (args : List VaArg) :
    formatCalls toFloat ('{' :: f) 0 args = scanBehind toFloat [.addMap 0] f args :=
  @formatCalls_directive toFloat '{' [] f args args (some (.addMap 0)) rfl

/-- ... two that close, ... -/
theorem formatCalls_closeArray (f : List Char) (args : List VaArg) :
    formatCalls toFloat (']' :: f) 0 args = scanBehind toFloat [.containerClose] f args :=
  @formatCalls_directive toFloat ']' [] f args args (some .containerClose) rfl

/-- ... whatever is open. -/
theorem formatCalls_closeMap (f : List Char) (args : List VaArg) :
    formatCalls toFloat ('}' :: f) 0 args = scanBehind toFloat [.containerClose] f args :=
  @formatCalls_directive toFloat '}' [] f args args (some .containerClose) rfl

/-- A bracket that opens, what stands in it, the bracket that closes, and what follows. -/
theorem formatCalls_array {inner calls : List Call} {f f₁ f' : List Char}
    {args args₁ args' : List VaArg}
    (hinner : formatCalls toFloat f 0 args = scanBehind toFloat inner (']' :: f₁) args₁)
    (hrest : formatCalls toFloat f₁ 0 args₁ = scanBehind toFloat calls f' args') :
    formatCalls toFloat ('[' :: f) 0 args =
      scanBehind toFloat (.addArray 0 :: (inner ++ [.containerClose]) ++ calls) f' args' := by
  rw [formatCalls_openArray, scanBehind_trans hinner, scanBehind_trans (formatCalls_closeArray f₁ args₁),
    scanBehind_trans hrest]
  simp

/-- A map with all that is between its braces. -/
theorem formatCalls_map {inner calls : List Call} {f f₁ f' : List Char}
    {args args₁ args' : List VaArg}
    (hinner : formatCalls toFloat f 0 args = scanBehind toFloat inner ('}' :: f₁) args₁)
    (hrest : formatCalls toFloat f₁ 0 args₁ = scanBehind toFloat calls f' args') :
    formatCalls toFloat ('{' :: f) 0 args =
      scanBehind toFloat (.addMap 0 :: (inner ++ [.containerClose]) ++ calls) f' args' := by
  rw [formatCalls_openMap, scanBehind_trans hinner, scanBehind_trans (formatCalls_closeMap f₁ args₁),
    scanBehind_trans hrest]
  simp

/-- **The scanner follows the grammar**: it makes calls that emit the values described, takes their
arguments, and goes on behind them.  The induction is on the grammar; each case adds what one more
character makes the scanner do. -/
theorem Items.scan {f f' : List Char} {args args' : List VaArg} {vs : List Value}
    (h : Items toFloat f args vs f' args') :
    ∃ calls, formatCalls toFloat f 0 args = scanBehind toFloat calls f' args' ∧
      (FitsAll vs → ReplaysAll vs calls) := by
  induction h with
  | stop f args => exact ⟨[], scanBehind_nil f args, fun _ => .nil⟩
  | @skip c f args vs f' args' hc _ ih =>
    obtain ⟨calls, hscan, hreplay⟩ := ih
    refine ⟨calls, ?_, hreplay⟩
    -- a character without a meaning makes no call
    have hone := @formatCalls_directive toFloat c [] f args args none (hc.directive args)
    exact hone.trans (scanBehind_trans hscan)
  | @percent f args vs f' args' _ ih =>
    obtain ⟨calls, hscan, hreplay⟩ := ih
    exact ⟨calls, (formatCalls_percent f args).trans (scanBehind_trans hscan), hreplay⟩
  | @nil f args vs f' args' _ ih =>
    obtain ⟨calls, hscan, hreplay⟩ := ih
    refine ⟨.addNil :: calls, (formatCalls_nil f args).trans (scanBehind_trans hscan), ?_⟩
    intro hfits
    have hleaf : Replays .nil [.addNil] := .leaf rfl
    exact .cons hleaf (hreplay hfits.2)
  | @value s as v f args vs f' args' hspec _ ih =>
    obtain ⟨calls, hscan, hreplay⟩ := ih
    obtain ⟨call, hdir, hleaf⟩ := hspec.directive f args
    -- a specifier is one call, with its argument
    refine ⟨call :: calls, ?_, fun hfits => ?_⟩
    · exact (formatCalls_directive hdir).trans (scanBehind_trans hscan)
    · have hone : Replays v [call] := .leaf (hleaf hfits.1)
      exact .cons hone (hreplay hfits.2)
  | @array xs f args f₁ args₁ vs f' args' _ _ ihx ih =>
    obtain ⟨inner, hinner, hreplayx⟩ := ihx
    obtain ⟨calls, hscan, hreplay⟩ := ih
    -- brackets are two calls, around those of what they hold
    refine ⟨_, formatCalls_array hinner hscan, fun hfits => ?_⟩
    exact .cons (.array 0 (hreplayx hfits.1.2)) (hreplay hfits.2)
  | @map kvs f args f₁ args₁ vs f' args' _ _ ihx ih =>
    obtain ⟨inner, hinner, hreplayx⟩ := ihx
    obtain ⟨calls, hscan, hreplay⟩ := ih
    refine ⟨_, formatCalls_map hinner hscan, fun hfits => ?_⟩
    exact .cons (.map 0 (hreplayx ((fitsPairs_iff kvs).mp hfits.1.2))) (hreplay hfits.2)

end Grammar

/-! ## §3 — counters that wrap around.

A container with `2^32` members or more is written with a count that is too small.  The bytes behind
the header are then read as what stands behind the container. -/

mutual

/-- The containers of a value, with `nil` for every leaf. -/
def skeleton : Value → Value
  | .array xs => .array (skeletonAll xs)
  | .map kvs => .map (skeletonPairs kvs)
  | _ => .nil

def skeletonAll : List Value → List Value
  | [] => []
  | v :: vs => skeleton v :: skeletonAll vs

def skeletonPairs : List (Value × Value) → List (Value × Value)
  | [] => []
  | (k, v) :: kvs => (skeleton k, skeleton v) :: skeletonPairs kvs

end

/-- A leaf has the skeleton of every leaf. -/
theorem skeleton_leaf {v : Value} (h : depth v = 0) : skeleton v = .nil := by
  cases v with
  | array xs => simp [depth] at h
  | map kvs => simp [depth] at h
  | _ => rfl

/-- As many skeletons as values. -/
@[simp] theorem skeletonAll_length (vs : List Value) : (skeletonAll vs).length = vs.length := by
  induction vs with
  | nil => rfl
  | cons v vs ih => simp [skeletonAll, ih]

@[simp] theorem skeletonPairs_length (kvs : List (Value × Value)) :
    (skeletonPairs kvs).length = kvs.length := by
  induction kvs with
  | nil => rfl
  | cons kv kvs ih => simp [skeletonPairs, ih]

/-- The skeletons of a map are those of its keys and values. -/
theorem flat_skeletonPairs (kvs : List (Value × Value)) :
    flat (skeletonPairs kvs) = skeletonAll (flat kvs) := by
  induction kvs with
  | nil => rfl
  | cons kv kvs ih => simp [skeletonPairs, skeletonAll, flat, ih]

/-- An array with the same containers. -/
theorem skeleton_eq_array {v : Value} {xs : List Value} (h : skeleton v = skeleton (.array xs)) :
    ∃ ys, v = .array ys ∧ skeletonAll ys = skeletonAll xs := by
  cases v with
  | array ys => exact ⟨ys, rfl, Value.array.inj h⟩
  | _ => exact absurd h (by simp [skeleton])

/-- A value with the skeleton of a map is a map with as many pairs. -/
theorem skeleton_eq_map {v : Value} {kvs : List (Value × Value)}
    (h : skeleton v = skeleton (.map kvs)) :
    ∃ ps, v = .map ps ∧ ps.length = kvs.length ∧
      skeletonAll (flat ps) = skeletonAll (flat kvs) := by
  cases v with
  | map ps =>
    have hpairs : skeletonPairs ps = skeletonPairs kvs := Value.map.inj h
    refine ⟨ps, rfl, ?_, ?_⟩
    · rw [← skeletonPairs_length ps, hpairs, skeletonPairs_length]
    · rw [← flat_skeletonPairs, hpairs, flat_skeletonPairs]
  | _ => exact absurd h (by simp [skeleton])

mutual

/-- How many members a container has is a matter of the containers alone. -/
theorem narrow_skeleton : ∀ v : Value, Narrow (skeleton v) ↔ Narrow v
  | .array xs => by
    rw [skeleton, Narrow, Narrow, skeletonAll_length, narrowAll_skeleton xs]
  | .map kvs => by
    rw [skeleton, Narrow, Narrow, skeletonPairs_length, narrowPairs_skeleton kvs]
  | .nil => Iff.rfl
  | .bool _ => Iff.rfl
  | .uint _ => Iff.rfl
  | .int _ => Iff.rfl
  | .float _ => Iff.rfl
  | .double _ => Iff.rfl
  | .str _ => Iff.rfl
  | .bin _ => Iff.rfl
  | .ext _ _ => Iff.rfl

/-- Whether values are narrow is a matter of their skeletons, ... -/
theorem narrowAll_skeleton : ∀ vs : List Value, NarrowAll (skeletonAll vs) ↔ NarrowAll vs
  | [] => Iff.rfl
  | v :: vs => by
    rw [skeletonAll, NarrowAll, NarrowAll, narrow_skeleton v, narrowAll_skeleton vs]

/-- ... for maps as for sequences. -/
theorem narrowPairs_skeleton : ∀ kvs : List (Value × Value),
    NarrowPairs (skeletonPairs kvs) ↔ NarrowPairs kvs
  | [] => Iff.rfl
  | (k, v) :: kvs => by
    rw [skeletonPairs, NarrowPairs, NarrowPairs, narrow_skeleton k, narrow_skeleton v,
      narrowPairs_skeleton kvs]

end

/-- A header the builder writes reads one way only. -/
theorem header_reads {f : Form} {mk : Len → Lead} (hmk : ∀ l l', mk l = mk l' → l = l')
    (hf : f.Agrees mk) {m : Nat} (hm : f.Covers m) {b : UInt8} {l : Len} {n : Nat} {ds r s : Bytes}
    (hlead : lead b = mk l) (hl : l.Holds n ds) (h : b :: ds ++ r = f.min m ++ s) :
    n = m ∧ r = s := by
  obtain ⟨b', l', es, heq, hlead', hl'⟩ := Form.min_spec hf hm
  rw [heq, List.cons_append, List.cons_append] at h
  obtain ⟨rfl, htail⟩ := List.cons.inj h
  obtain rfl := hmk _ _ (hlead.symm.trans hlead')
  obtain ⟨hsame, -, hrest⟩ := hl.unique hl' htail
  exact ⟨hsame, hrest⟩

mutual

/-- Without wrapping, the encoding is the canonical one. -/
theorem wrapped_narrow : ∀ v : Value, Narrow v → wrapped packed v = encode v
  | .array xs, h => by
    rw [wrapped, Nat.mod_eq_of_lt h.1, wrappedAll_narrow xs h.2]
    rfl
  | .map kvs, h => by
    rw [wrapped, Nat.mod_eq_of_lt h.1, wrappedPairs_narrow kvs h.2, Kind.header, Kind.announced,
      Nat.mul_div_cancel_left _ (by omega)]
    rfl
  | .nil, _ => rfl
  | .bool _, _ => rfl
  | .uint _, _ => rfl
  | .int _, _ => rfl
  | .float _, _ => rfl
  | .double _, _ => rfl
  | .str _, _ => rfl
  | .bin _, _ => rfl
  | .ext _ _, _ => rfl

/-- Narrow values are encoded without wrapping, ... -/
theorem wrappedAll_narrow : ∀ vs : List Value, NarrowAll vs →
    wrappedAll packed vs = encodeAllWith packed vs
  | [], _ => rfl
  | v :: vs, h => by
    rw [wrappedAll, wrapped_narrow v h.1, wrappedAll_narrow vs h.2]
    rfl

/-- ... and so are their pairs. -/
theorem wrappedPairs_narrow : ∀ kvs : List (Value × Value), NarrowPairs kvs →
    wrappedPairs packed kvs = encodePairsWith packed kvs
  | [], _ => rfl
  | (k, v) :: kvs, h => by
    rw [wrappedPairs, wrapped_narrow k h.1, wrapped_narrow v h.2.1, wrappedPairs_narrow kvs h.2.2]
    rfl

end

mutual

/-- **Where the bytes are an encoding, nothing has wrapped.**  `w` is what was put in, and `v`, with
the same containers, what the bytes say.  The induction goes through the bytes from the left: as
long as headers are equal, the contents start at the same place. -/
theorem Replays.narrow : ∀ {w : Value} {calls : List Call}, Replays w calls → ∀ {v : Value},
    skeleton v = skeleton w → ∀ {b r s : Bytes}, Encodes v b → b ++ r = wrapped packed w ++ s →
    Narrow w ∧ r = s
  | w, _, .leaf hleaf, v, _, b, r, s, hv, h => by
    obtain ⟨hfits, hdepth⟩ := Call.leafValue_fits hleaf
    rw [wrapped_leaf packed hdepth] at h
    -- a leaf has no counter: its bytes are its encoding
    obtain ⟨-, -, hrest⟩ := hv.unique (encodes_encodeWith packed_sound w hfits) h
    have hnarrow : Narrow w := by
      rw [← narrow_skeleton w, skeleton_leaf hdepth]
      trivial
    exact ⟨hnarrow, hrest⟩
  | .array xs, _, .array _ hxs, v, hskel, b, r, s, hv, h => by
    obtain ⟨ys, rfl, hsame⟩ := skeleton_eq_array hskel
    obtain ⟨b₀, l, ds, body, rfl, hlead, hl, hbody⟩ := hv.array_cases
    rw [wrapped, List.append_assoc, List.append_assoc] at h
    have hmod : xs.length % 2 ^ 32 < 2 ^ 32 := Nat.mod_lt _ (by omega)
    -- the header is that of the count modulo `2^32`, and the encoding behind it has that many
    -- members
    obtain ⟨hcount, hrest⟩ := header_reads (fun _ _ => Lead.array.inj) packed_sound.array
      (packed_sound.array_covers _ hmod) hlead hl h
    obtain ⟨hnarrow, hend⟩ := hxs.narrow hsame hbody hrest
    -- but the skeleton says how many there are, so none was lost
    have hlen : ys.length = xs.length := by
      rw [← skeletonAll_length ys, hsame, skeletonAll_length]
    exact ⟨⟨by omega, hnarrow⟩, hend⟩
  | .map kvs, _, .map _ hkvs, v, hskel, b, r, s, hv, h => by
    obtain ⟨ps, rfl, hlen, hsame⟩ := skeleton_eq_map hskel
    obtain ⟨b₀, l, ds, body, rfl, hlead, hl, hbody⟩ := hv.map_cases
    rw [wrapped, List.append_assoc, List.append_assoc, wrappedPairs_eq] at h
    have hmod : 2 * kvs.length % 2 ^ 32 / 2 < 2 ^ 32 := by omega
    -- of a map, keys and values are counted together
    obtain ⟨hcount, hrest⟩ := header_reads (fun _ _ => Lead.map.inj) packed_sound.map
      (packed_sound.map_covers _ hmod) hlead hl h
    obtain ⟨hnarrow, hend⟩ := hkvs.narrow hsame hbody hrest
    refine ⟨⟨?_, (narrowPairs_iff kvs).mpr hnarrow⟩, hend⟩
    have hlt : 2 * kvs.length % 2 ^ 32 < 2 ^ 32 := Nat.mod_lt _ (by omega)
    omega

/-- The same for a sequence, from its first value on. -/
theorem ReplaysAll.narrow : ∀ {ws : List Value} {calls : List Call}, ReplaysAll ws calls →
    ∀ {vs : List Value}, skeletonAll vs = skeletonAll ws → ∀ {b r s : Bytes}, EncodesAll vs b →
    b ++ r = wrappedAll packed ws ++ s → NarrowAll ws ∧ r = s
  | _, _, .nil, vs, hskel, b, r, s, hvs, h => by
    cases vs with
    | nil => cases hvs; exact ⟨trivial, h⟩
    | cons v vs => exact absurd hskel (by simp [skeletonAll])
  | w :: ws, _, .cons hw hws, vs, hskel, b, r, s, hvs, h => by
    cases vs with
    | nil => exact absurd hskel (by simp [skeletonAll])
    | cons v vs =>
      obtain ⟨hfirst, htail⟩ := List.cons.inj hskel
      obtain ⟨bs, cs, rfl, hv, hvs⟩ := hvs.cons_cases
      rw [wrappedAll, List.append_assoc, List.append_assoc] at h
      obtain ⟨hnarrow, hrest⟩ := hw.narrow hfirst hv h
      obtain ⟨hnarrows, hend⟩ := hws.narrow htail hvs hrest
      exact ⟨⟨hnarrow, hnarrows⟩, hend⟩

end

/-- A sequence whose canonical encoding is what the counters wrote. -/
theorem ReplaysAll.narrow_of_wrapped {vs : List Value} {calls : List Call}
    (h : ReplaysAll vs calls) (hfits : FitsAll vs)
    (heq : wrappedAll packed vs = encodeAllWith packed vs) : NarrowAll vs := by
  have hbytes : encodeAllWith packed vs ++ [] = wrappedAll packed vs ++ [] := by rw [heq]
  exact (h.narrow rfl (encodesAll_encodeAllWith packed_sound vs hfits) hbytes).1

/-! ## §4 — formats.

From a blank object, and with arguments that match the specifiers in number and type. -/

section Formats

variable [Msgpuck]

/-- A format of the grammar leaves the encodings of its values, with wrapped counters. -/
theorem tntObjectVformat_wrapped {toFloat : UInt64 → UInt32} {fmt : List Char} {args : List VaArg}
    {vs : List Value} (h : Formatted toFloat fmt args vs) (hfits : FitsAll vs)
    (hdepth : depthAll vs ≤ 8) {o : Obj} (ho : Blank o) {A : Nat → ObjAllocator}
    (hA : ∀ k, (A k).Succeeds) (more : List VaArg) :
    ∃ rv o', tntObjectVformat toFloat A o fmt (args ++ more) = some (rv, o') ∧ rv ≠ -1 ∧
      o'.stackSize = 0 ∧ o'.bytes = wrappedAll packed vs := by
  obtain ⟨calls, hscan, hreplay⟩ := (h.more more).scan
  have hcalls : formatCalls toFloat fmt 0 (args ++ more) = some (calls, more) := by
    rw [hscan, scanBehind, formatCalls]
    simp
  obtain ⟨o₁, htype, hwf, hsane, hmode, hb⟩ := ho.setType .packed
  obtain ⟨ops, hemits, hp⟩ := (hreplay hfits).emits
  have hsteps := Nest.steps_emitsAll_nil packed hemits hdepth
  obtain ⟨rv, o', hrun, hrv, hwf', hb'⟩ := runFormat_nest hp hA hwf hsane (by rw [hmode]; rfl)
    (n := ⟨[], []⟩) hb hsteps 0 (Int.le_refl 0)
  refine ⟨rv, o', ?_, by omega, ?_, congrArg Build.bytes hb'⟩
  · simp only [tntObjectVformat, htype, show ¬ (0 : Int) = -1 by decide, if_false,
      vformatLoop_eq A hcalls, hrun]
  · rw [← hwf'.frames_length, show o'.frames = [] from congrArg Build.frames hb']
    rfl

/-- **When a format encodes what it says.**  For every format of the grammar up to eight containers
deep, on an object that is new or reset, the scan takes the arguments of the format and no others;
and the call succeeds and leaves the canonical encodings of the values described exactly if these
have encodings and no container has `2^32` members or more.  The proof has three parts that know
little of each other.  The scan of the format makes a list of calls (`formatCalls`); the calls of a
format of the grammar are those that build the values it describes; and such calls are what
`TarantoolC.Object.Builder` is about.  The eight containers are the first size of the stack array,
so no call grows it. -/
theorem tntObjectVformat_formatted_iff {toFloat : UInt64 → UInt32} {fmt : List Char}
    {args : List VaArg} {vs : List Value} (h : Formatted toFloat fmt args vs)
    (hdepth : depthAll vs ≤ 8) {o : Obj} (ho : Blank o) {A : Nat → ObjAllocator}
    (hA : ∀ k, (A k).Succeeds) (more : List VaArg) :
    (∃ calls, formatCalls toFloat fmt 0 (args ++ more) = some (calls, more)) ∧
      ((FitsAll vs ∧ ∃ rv o', tntObjectVformat toFloat A o fmt (args ++ more) = some (rv, o') ∧
          rv ≠ -1 ∧ o'.bytes = encodeAllWith packed vs) ↔ FitsAll vs ∧ NarrowAll vs) := by
  refine ⟨?_, ?_⟩
  · obtain ⟨calls, hscan, -⟩ := (h.more more).scan
    refine ⟨calls, ?_⟩
    rw [hscan, scanBehind, formatCalls]
    simp
  · constructor
    · rintro ⟨hfits, rv, o', hrun, -, hbytes⟩
      obtain ⟨rv', o'', hrun', -, -, hbytes'⟩ := tntObjectVformat_wrapped h hfits hdepth ho hA more
      rw [hrun] at hrun'
      obtain ⟨-, rfl⟩ := Prod.mk.inj (Option.some.inj hrun')
      obtain ⟨calls, -, hreplay⟩ := h.scan
      exact ⟨hfits, (hreplay hfits).narrow_of_wrapped hfits (by rw [← hbytes', hbytes])⟩
    · rintro ⟨hfits, hnarrow⟩
      obtain ⟨rv, o', hrun, hrv, -, hbytes⟩ := tntObjectVformat_wrapped h hfits hdepth ho hA more
      exact ⟨hfits, rv, o', hrun, hrv, by rw [hbytes, wrappedAll_narrow vs hnarrow]⟩

end Formats

/-- `[%d {NIL %hu} %%]` with -5 and 7. -/
theorem tntObjectVformat_formatted_nested :
    let fmt := ['[', '%', 'd', ' ', '{', 'N', 'I', 'L', '%', 'h', 'u', '}', '%', '%', ']']
    ∃ rv o', @tntObjectVformat (fun _ => 0) Msgpuck.reference (fun _ => zeroingObj)
        (tntObject zeroStack) fmt ([.int (-5), .int 7] ++ []) = some (rv, o') ∧ rv ≠ -1 ∧
      o'.bytes = encodeAllWith packed [.array [.int (-5), .map [(.nil, .uint 7)]]] := by
  intro fmt
  let _ := Msgpuck.reference
  have hformatted : Formatted (fun _ => 0) fmt [.int (-5), .int 7]
      [.array [.int (-5), .map [(.nil, .uint 7)]]] := by
    have hfive : Specifier (fun _ => 0) ['d'] [.int (-5)] (.int (-5)) := .int (by simp) (-5)
    have hseven : Specifier (fun _ => 0) ['h', 'u'] [.int 7] (.uint 7) := .ushort (by simp) 7 (by decide)
    refine .array (.value hfive (.skip ?_ ?_)) (.stop [] _)
    · exact ⟨by decide, by decide⟩
    · have hpair : Items (fun _ => 0) ['N', 'I', 'L', '%', 'h', 'u', '}', '%', '%', ']'] [.int 7]
          (flat [(.nil, .uint 7)]) ['}', '%', '%', ']'] [] := .nil (.value hseven (.stop _ _))
      exact .map hpair (.percent (.stop _ _))
  have hblank : Blank (tntObject zeroStack) := .new rfl
  have hiff := (tntObjectVformat_formatted_iff hformatted (by decide) hblank (A := fun _ => zeroingObj)
    (fun _ => zeroingObj_succeeds) []).2
  refine (hiff.mpr ⟨?_, ?_⟩).2
  · simp [FitsAll, Value.Fits, FitsPairs]
  · simp [NarrowAll, Narrow, NarrowPairs]

/-- Between braces: `n` pairs of `NIL`. -/
def nilPairs (n : Nat) : List Char := '{' :: ((List.replicate (2 * n) ['N', 'I', 'L']).flatten ++ ['}'])

/-- `NIL` over and over. -/
theorem Items.nils {toFloat : UInt64 → UInt32} (f : List Char) (args : List VaArg) (n : Nat) :
    Items toFloat ((List.replicate (2 * n) ['N', 'I', 'L']).flatten ++ f) args
      (flat (List.replicate n (.nil, .nil))) f args := by
  induction n with
  | zero => exact .stop f args
  | succ n ih =>
    rw [show 2 * (n + 1) = 2 * n + 1 + 1 by omega, List.replicate_succ, List.replicate_succ,
      List.replicate_succ]
    exact .nil (.nil ih)

/-- The format of the counterexample describes a map of nils, ... -/
theorem nilPairs_formatted {toFloat : UInt64 → UInt32} (n : Nat) :
    Formatted toFloat (nilPairs n) [] [.map (List.replicate n (.nil, .nil))] :=
  .map (Items.nils ['}'] [] n) (.stop [] [])

/-- ... which has an encoding. -/
theorem nilPairs_fits {n : Nat} (h : n < 2 ^ 32) :
    FitsAll [.map (List.replicate n (.nil, .nil))] ∧
      depthAll [.map (List.replicate n (.nil, .nil))] ≤ 8 := by
  have hpairs : ∀ m, FitsPairs (List.replicate m (.nil, .nil)) ∧
      depthPairs (List.replicate m (.nil, .nil)) = 0 := by
    intro m
    induction m with
    | zero => exact ⟨trivial, rfl⟩
    | succ m ih => exact ⟨⟨trivial, trivial, ih.1⟩, by simp [List.replicate_succ, depthPairs, depth, ih.2]⟩
  refine ⟨⟨⟨?_, (hpairs n).1⟩, trivial⟩, ?_⟩
  · rw [List.length_replicate]
    exact h
  · simp [depthAll, depth, (hpairs n).2]

/-- A map of half of `2^32` pairs or more is not announced as such. -/
theorem tntObjectVformat_nilPairs [Msgpuck] {n : Nat} (hlo : 2 ^ 32 ≤ 2 * n) (hhi : n < 2 ^ 32) :
    ∃ rv o', tntObjectVformat (fun _ => 0) (fun _ => zeroingObj) (tntObject zeroStack) (nilPairs n)
        [] = some (rv, o') ∧ rv ≠ -1 ∧
      o'.bytes ≠ encodeAllWith packed [.map (List.replicate n (.nil, .nil))] := by
  obtain ⟨hfits, hdepth⟩ := nilPairs_fits hhi
  have hblank : Blank (tntObject zeroStack) := .new rfl
  obtain ⟨rv, o', hrun, hrv, -, hbytes⟩ := tntObjectVformat_wrapped (nilPairs_formatted n) hfits
    hdepth hblank (A := fun _ => zeroingObj) (fun _ => zeroingObj_succeeds) []
  refine ⟨rv, o', hrun, hrv, ?_⟩
  intro heq
  obtain ⟨calls, -, hreplay⟩ := (@nilPairs_formatted (fun _ => 0) n).scan
  obtain ⟨⟨hnarrow, -⟩, -⟩ := (hreplay hfits).narrow_of_wrapped hfits (by rw [← hbytes, heq])
  rw [List.length_replicate] at hnarrow
  omega

/-- Braces around `2^32` times `NIL`: `2^31` pairs, which the format allows, and a counter back at
zero. -/
theorem tntObjectVformat_wraps_around :
    Formatted (fun _ => 0) (nilPairs (2 ^ 31)) [] [.map (List.replicate (2 ^ 31) (.nil, .nil))] ∧
      FitsAll [.map (List.replicate (2 ^ 31) (.nil, .nil))] ∧
      depthAll [.map (List.replicate (2 ^ 31) (.nil, .nil))] ≤ 8 ∧
      ∃ rv o', @tntObjectVformat (fun _ => 0) Msgpuck.reference (fun _ => zeroingObj)
          (tntObject zeroStack) (nilPairs (2 ^ 31)) [] = some (rv, o') ∧ rv ≠ -1 ∧
        o'.bytes ≠ encodeAllWith packed [.map (List.replicate (2 ^ 31) (.nil, .nil))] := by
  have hlt : 2 ^ 31 < 2 ^ 32 := by omega
  exact ⟨nilPairs_formatted _, (nilPairs_fits hlt).1, (nilPairs_fits hlt).2,
    @tntObjectVformat_nilPairs Msgpuck.reference _ (by omega) hlt⟩

end TarantoolC.Object
