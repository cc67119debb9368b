/-
# TarantoolC.Tp.Agree — `tp.h` and `libtnt` write the same requests.

A user of `tp.h` starts a request, appends its key, its tuple or its operations piece by piece, and
sets the sync; a user of `libtnt` has the pieces as objects and makes one call.  The bytes are not
the same: the sync of `tp.h` is always five bytes wide, the pairs of a select come in another order,
and an update of `tp.h` says nothing of an index.  A server that decodes both finds the same type,
the same sync and the same pairs.

What is appended is compared as a value: any calls whose bytes are an encoding of the array will do,
in whatever widths and pieces, and any object (`Appends`).  `Ask` is the request as the user means it,
with the pairs that each side has for it; `encoders_agree` reads both messages as a server does and
finds them to be the same.

The two sides are read separately, against the pairs in `Ask.pairs` and `Ask.tpPairs`, and compared
only then.  On the side of `tp.h` all is reduced to one frame first (`runCalls_frame`): a request
function, the calls that append, and the id, in a buffer with room for all of them.
-/
import TarantoolC.Tp.Frames
import TarantoolC.Request.Direct

namespace TarantoolC.Tp

open MsgPack Msgpuck Mpsize Request

/-! ## §1 — several calls.

Behind a request come calls that append to it, and one that sets the id.  With room for all of them
none returns `NULL`, so what is left are their effects on one frame. -/

/-- A program that goes on as long as no call returns `NULL`. -/
def runCalls [Mpsize] (R : Option Reserve) : List TpCall → Tp → Option Tp
  | [], t => some t
  | c :: l, t => do
    let (r, t) ← c.run R t
    if r = .null then none else runCalls R l t

/-- What the calls add. -/
def needs (l : List TpCall) : Nat := (l.map fun c => c.effect.need).sum

def applyAll (l : List TpCall) (frames : List Frame) : List Frame :=
  l.foldl (fun frames c => c.effect.apply frames) frames

/-- Behind a frame every effect is legal. -/
theorem Effect.legal_of_ne_nil {e : Effect} {frames : List Frame} (h : frames ≠ []) :
    e.Legal frames := by
  cases e with
  | start code body => trivial
  | append bs => exact h
  | sync n => exact h

/-- One call with room for it.  Without a realloc the buffer is as long as before, and with one it
is as well, since it is not called. -/
theorem TpCall.run_room [Mpsize] (c : TpCall) {R : Option Reserve} (hR : Trusted R) {t : Tp}
    {frames : List Frame} (h : Represents t frames) (hlegal : c.effect.Legal frames)
    (hroom : (wire frames).length + c.effect.need ≤ t.mem.length) :
    ∃ r t', c.run R t = some (r, t') ∧ r ≠ .null ∧ Represents t' (c.effect.apply frames) ∧
      t'.mem.length = t.mem.length := by
  have hun := h.unused
  rcases c.run_spec hR h hlegal with ⟨-, hlt⟩ | ⟨r, t', hok, hret, hrep, hlen⟩
  · omega
  · exact ⟨r, t', hok, hret, hrep, hlen (by omega)⟩

/-- **Calls with room for them have their effects one after the other.**  The room is that of all of
them together, so that none of them has to grow the buffer. -/
theorem runCalls_room [Mpsize] {R : Option Reserve} (hR : Trusted R) (l : List TpCall) {t : Tp}
    {frames : List Frame} (h : Represents t frames) (hne : frames ≠ [])
    (hroom : (wire frames).length + needs l ≤ t.mem.length) :
    ∃ t', runCalls R l t = some t' ∧ Represents t' (applyAll l frames) := by
  induction l generalizing t frames with
  | nil => exact ⟨t, rfl, h⟩
  | cons c l ih =>
    have hsum : needs (c :: l) = c.effect.need + needs l := by
      simp only [needs, List.map_cons, List.sum_cons]
    have hlegal : c.effect.Legal frames := Effect.legal_of_ne_nil hne
    have hwire := Effect.wire_length hlegal
    obtain ⟨r, t₁, hok, hret, hrep, hlen⟩ := c.run_room hR h hlegal (by omega)
    obtain ⟨t', hrest, hrep'⟩ := ih hrep (Effect.apply_ne_nil hne) (by omega)
    refine ⟨t', ?_, hrep'⟩
    simp only [runCalls, hok, Option.bind_eq_bind, Option.bind_some, if_neg hret]
    exact hrest

/-- The bytes that calls append; `none` if one of them does something else. -/
def appended : List TpCall → Option Bytes
  | [] => some []
  | c :: l =>
    match c.effect with
    | .append bs => (appended l).map (bs ++ ·)
    | _ => none

/-- What calls append: one more, ... -/
theorem appended_cons {c : TpCall} {bs : Bytes} (h : c.effect = .append bs) (l : List TpCall) :
    appended (c :: l) = (appended l).map (bs ++ ·) := by
  simp only [appended, h]

/-- ... or calls behind calls. -/
theorem appended_append {l m : List TpCall} {bs cs : Bytes} (hl : appended l = some bs)
    (hm : appended m = some cs) : appended (l ++ m) = some (bs ++ cs) := by
  induction l generalizing bs with
  | nil =>
    obtain rfl := Option.some.inj hl
    exact hm
  | cons c l ih =>
    simp only [appended] at hl
    split at hl
    · next ds heff =>
      obtain ⟨es, hes, rfl⟩ := Option.map_eq_some_iff.mp hl
      rw [List.cons_append, appended_cons heff, ih hes, Option.map_some, List.append_assoc]
    · exact absurd hl (by simp)

/-- Appending extends the body and nothing else.  The request in front, which is the one that is
being written, takes them all. -/
theorem applyAll_appended {l : List TpCall} {bs : Bytes} (h : appended l = some bs) (f : Frame)
    (done : List Frame) :
    applyAll l (f :: done) = { f with body := f.body ++ bs } :: done := by
  induction l generalizing f bs with
  | nil =>
    obtain rfl := Option.some.inj h
    simp only [applyAll, List.foldl_nil, List.append_nil]
  | cons c l ih =>
    simp only [appended] at h
    split at h
    · next ds heff =>
      obtain ⟨es, hes, rfl⟩ := Option.map_eq_some_iff.mp h
      have hstep : applyAll (c :: l) (f :: done) =
          applyAll l ({ f with body := f.body ++ ds } :: done) := by
        simp only [applyAll, List.foldl_cons, heff, Effect.apply]
      rw [hstep, ih hes, List.append_assoc]
    · exact absurd h (by simp)

/-- **A request, what is appended to it, and its id, in a buffer with room for all**: one frame.
The window may be new or have frames in it already. -/
theorem runCalls_frame [Mpsize] {R : Option Reserve} (hR : Trusted R) {s : Nat} {buf : Bytes}
    {c : TpCall} {code : RequestType} {body bs : Bytes} {l : List TpCall}
    (hc : c.effect = .start code body) (hl : appended l = some bs) (reqid : UInt32)
    (hroom : needs (c :: (l ++ [.reqid reqid])) ≤ buf.length) :
    ∃ t, runCalls R (c :: (l ++ [.reqid reqid])) (tpInit s buf) = some t ∧
      t.bytes = (Frame.mk code reqid (body ++ bs)).bytes := by
  have hinit := tpInit_represents s buf
  have hlegal : c.effect.Legal [] := by rw [hc]; trivial
  have hsum : needs (c :: (l ++ [.reqid reqid])) = c.effect.need + needs (l ++ [.reqid reqid]) := by
    simp only [needs, List.map_cons, List.sum_cons]
  have hwire := Effect.wire_length hlegal
  have hlen : (tpInit s buf).mem.length = buf.length := rfl
  obtain ⟨r, t₁, hok, hret, hrep, hlen₁⟩ := c.run_room hR hinit hlegal
    (by rw [wire_nil, List.length_nil]; omega)
  rw [wire_nil, List.length_nil] at hwire
  obtain ⟨t, hrest, hrep'⟩ := runCalls_room hR (l ++ [.reqid reqid]) hrep
    (by rw [hc]; exact List.cons_ne_nil _ _) (by omega)
  refine ⟨t, ?_, ?_⟩
  · simp only [runCalls, hok, Option.bind_eq_bind, Option.bind_some, if_neg hret]
    exact hrest
  · have hall : applyAll (l ++ [.reqid reqid]) (c.effect.apply []) =
        [Frame.mk code reqid (body ++ bs)] := by
      rw [hc, applyAll, List.foldl_append]
      show applyAll [.reqid reqid] (applyAll l [Frame.mk code 0 body]) = _
      rw [applyAll_appended hl]
      rfl
    rw [hrep'.bytes_eq, hall, wire_cons, wire_nil, List.nil_append]

/-! ## §2 — requests in both interfaces.

The operations that both interfaces have, with arguments as a user thinks of them.  The pairs of
the two bodies are written down from the two headers, before either encoder is looked at. -/

/-- A request that both interfaces have; keys, tuples, operations and arguments are arrays.  It has
the values and not their encodings, of which the two interfaces may choose different ones. -/
inductive Ask where
  | ping
  | select (space index limit offset : UInt32) (iterator : UInt8) (key : List Value)
  | insert (space : UInt32) (tuple : List Value)
  | replace (space : UInt32) (tuple : List Value)
  | update (space : UInt32) (key ops : List Value)
  | call (function : TpStr) (args : List Value)
  | eval (expr : TpStr) (args : List Value)

def Ask.type : Ask → Proto.RequestType
  | .ping => .ping
  | .select .. => .select
  | .insert .. => .insert
  | .replace .. => .replace
  | .update .. => .update
  | .call .. => .call16
  | .eval .. => .eval

/-- The calls append an encoding of the array. -/
def Appends (l : List TpCall) (xs : List Value) : Prop :=
  ∃ bs, appended l = some bs ∧ Encodes (.array xs) bs

/-- How a user of `tp.h` asks, up to `tp_reqid`.  The request call comes first and then what is
appended to it, in pieces and widths of the user's choice. -/
inductive Ask.Calls : Ask → List TpCall → Prop
  | ping : Calls .ping [.ping]
  | select {space index limit offset iterator key l} (h : Appends l key) :
      Calls (.select space index limit offset iterator key)
        (.select space index offset iterator.toUInt32 limit :: l)
  | insert {space tuple l} (h : Appends l tuple) : Calls (.insert space tuple) (.insert space :: l)
  | replace {space tuple l} (h : Appends l tuple) :
      Calls (.replace space tuple) (.replace space :: l)
  | update {space key ops n l m} (hkey : Appends l key) (hops : Appends (.encodeArray n :: m) ops) :
      Calls (.update space key ops) (.update space :: (l ++ (.updatebegin n :: m)))
  | call {function args l} (h : Appends l args) : Calls (.call function args) (.call function :: l)
  | eval {expr args l} (h : Appends l args) : Calls (.eval expr args) (.eval expr :: l)

/-- How a user of `libtnt` does.  The objects were made by the user, in whatever mode.  An index is
0 where `tp.h` has none to give. -/
inductive Ask.Tnt : Ask → Direct → Prop
  | ping : Tnt .ping .ping
  | select {space index limit offset iterator key obj} (h : Encodes (.array key) obj.bytes) :
      Tnt (.select space index limit offset iterator key)
        (.select space index limit offset iterator obj)
  | insert {space tuple obj} (h : Encodes (.array tuple) obj.bytes) :
      Tnt (.insert space tuple) (.insert space obj)
  | replace {space tuple obj} (h : Encodes (.array tuple) obj.bytes) :
      Tnt (.replace space tuple) (.replace space obj)
  | update {space key ops obj obj'} (hkey : Encodes (.array key) obj.bytes)
      (hops : Encodes (.array ops) obj'.bytes) :
      Tnt (.update space key ops) (.update space 0 obj obj')
  | call {function args obj} (hne : function.bytes ≠ []) (h : Encodes (.array args) obj.bytes) :
      Tnt (.call function args) (.call16 (some function.bytes) obj)
  | eval {expr args obj} (hne : expr.bytes ≠ []) (h : Encodes (.array args) obj.bytes) :
      Tnt (.eval expr args) (.eval (some expr.bytes) obj)

def numPair (k : Proto.BodyKey) (n : UInt32) : Proto.BodyKey × Value := (k, .uint n.toNat)

/-- The pairs in the body of `libtnt`.  This is the order in which it writes them. -/
def Ask.pairs : Ask → List (Proto.BodyKey × Value)
  | .ping => []
  | .select space index limit offset iterator key =>
    [numPair .space space, numPair .index index, numPair .limit limit, numPair .offset offset,
      numPair .iterator iterator.toUInt32, (.key, .array key)]
  | .insert space tuple | .replace space tuple => [numPair .space space, (.tuple, .array tuple)]
  | .update space key ops =>
    [numPair .space space, numPair .index 0, (.key, .array key), (.tuple, .array ops)]
  | .call function args => [(.function, .str function.bytes), (.tuple, .array args)]
  | .eval expr args => [(.expression, .str expr.bytes), (.tuple, .array args)]

/-- The pairs in the body of `tp.h`.  Offset and limit are the other way round, and an update has no
index. -/
def Ask.tpPairs : Ask → List (Proto.BodyKey × Value)
  | .ping => []
  | .select space index limit offset iterator key =>
    [numPair .space space, numPair .index index, numPair .offset offset, numPair .limit limit,
      numPair .iterator iterator.toUInt32, (.key, .array key)]
  | .insert space tuple | .replace space tuple => [numPair .space space, (.tuple, .array tuple)]
  | .update space key ops => [numPair .space space, (.key, .array key), (.tuple, .array ops)]
  | .call function args => [(.function, .str function.bytes), (.tuple, .array args)]
  | .eval expr args => [(.expression, .str expr.bytes), (.tuple, .array args)]

/-- What a body says for a key, an absent index read as 0. -/
def readWithIndex (pairs : List (Proto.BodyKey × Value)) (k : Proto.BodyKey) : Option Value :=
  (pairs.lookup k).or (if k = .index then some (.uint 0) else none)

/-- The two bodies say the same, ... -/
theorem Ask.pairs_agree (a : Ask) (k : Proto.BodyKey) :
    readWithIndex a.pairs k = readWithIndex a.tpPairs k := by
  cases a with
  | select space index limit offset iterator key => cases k <;> rfl
  | update space key ops => cases k <;> rfl
  | _ => rfl

/-- ... and each says it once. -/
theorem Ask.pairs_nodup (a : Ask) :
    (a.pairs.map Prod.fst).Nodup ∧ (a.tpPairs.map Prod.fst).Nodup := by
  cases a <;> exact ⟨by simp [Ask.pairs, numPair], by simp [Ask.tpPairs, numPair]⟩

/-! ## §3 — the message of `libtnt`.

By the results about direct encoders; an object that encodes an array is read as that array. -/

/-- A number is read as the number, ... -/
theorem numField_pair (k : Proto.BodyKey) (n : UInt32) : (numField k n.toNat).Reads (numPair k n) :=
  numField_reads k n

/-- ... and an object as what it encodes. -/
theorem objectField_pair (k : Proto.BodyKey) {obj : StreamBuf} {xs : List Value}
    (h : Encodes (.array xs) obj.bytes) : (objectField k obj).Reads (k, .array xs) :=
  ⟨rfl, .object h⟩

/-- The call passes its checks and has the pairs of the request.  With this `Direct.exec_wire` says
what is on the wire. -/
theorem Ask.Tnt.spec [Digest] {a : Ask} {d : Direct} (h : a.Tnt d) :
    d.type = a.type ∧ d.TextsFit ∧ d.Accepts ∧
      List.Forall₂ Proto.Field.Reads d.fields a.pairs ∧ d.fields.length < 2 ^ 32 := by
  cases h with
  | ping => exact ⟨rfl, trivial, trivial, .nil, by simp [Direct.fields]⟩
  | @select space index limit offset iterator key obj h =>
    -- `libtnt` takes the iterator as a byte
    have hit : (numField .iterator iterator.toNat).Reads (numPair .iterator iterator.toUInt32) := by
      have hread := numField_pair .iterator iterator.toUInt32
      rwa [UInt8.toNat_toUInt32] at hread
    refine ⟨rfl, trivial, ⟨key, h⟩, ?_, by simp [Direct.fields]⟩
    exact .cons (numField_pair .space space) (.cons (numField_pair .index index)
      (.cons (numField_pair .limit limit) (.cons (numField_pair .offset offset)
        (.cons hit (.cons (objectField_pair .key h) .nil)))))
  | @insert space tuple obj h =>
    refine ⟨rfl, trivial, ⟨tuple, h⟩, ?_, by simp [Direct.fields]⟩
    exact .cons (numField_pair .space space) (.cons (objectField_pair .tuple h) .nil)
  | @replace space tuple obj h =>
    refine ⟨rfl, trivial, ⟨tuple, h⟩, ?_, by simp [Direct.fields]⟩
    exact .cons (numField_pair .space space) (.cons (objectField_pair .tuple h) .nil)
  | @update space key ops obj obj' hkey hops =>
    refine ⟨rfl, trivial, ⟨⟨key, hkey⟩, ⟨ops, hops⟩⟩, ?_, by simp [Direct.fields]⟩
    exact .cons (numField_pair .space space) (.cons (numField_pair .index 0)
      (.cons (objectField_pair .key hkey) (.cons (objectField_pair .tuple hops) .nil)))
  | @call function args obj hne h =>
    refine ⟨rfl, ?_, ⟨⟨function.bytes, rfl, hne⟩, args, h⟩, ?_, by simp [Direct.fields]⟩
    · intro text htext
      obtain rfl := Option.some.inj htext
      exact function.lt
    · exact .cons (textField_reads .function function.lt) (.cons (objectField_pair .tuple h) .nil)
  | @eval expr args obj hne h =>
    refine ⟨rfl, ?_, ⟨⟨expr.bytes, rfl, hne⟩, args, h⟩, ?_, by simp [Direct.fields]⟩
    · intro text htext
      obtain rfl := Option.some.inj htext
      exact expr.lt
    · exact .cons (textField_reads .expression expr.lt) (.cons (objectField_pair .tuple h) .nil)

/-! ## §4 — the frame of `tp.h`.

Its body is a header of a map and pairs, one of which is appended later than its key. -/

/-- The header with its sync of five bytes.  The sync is a number of 32 bits that is always written
in five bytes, so that `tp_reqid` can write over it. -/
theorem head_encodes {code : RequestType} {type : Proto.RequestType}
    (hcode : code.num.toNat = type.num) (sync : UInt32) :
    Encodes (Proto.header type sync.toNat) (head code ++ five sync.toNat) := by
  have hsync : Encodes (.uint sync.toNat) (five sync.toNat) := encodes_uint_five sync.toNat_lt
  have hnum : Encodes (.uint type.num) [UInt8.ofNat code.num.toNat] := by
    rw [← hcode]
    cases code <;> exact encodes_uint (by decide)
  have hkey : ∀ k : Proto.HeaderKey, Encodes (.uint k.num) [UInt8.ofNat k.num] := by
    intro k
    cases k <;> exact encodes_uint (by decide)
  have hpairs := EncodesAll.cons (hkey .code) (.cons hnum (.cons (hkey .sync) (.singleton hsync)))
  exact @Encodes.map 0x82 (.fix 2) _ [] _ (by decide) ⟨rfl, rfl⟩ hpairs

/-- The keys of `tp.h` among those of the protocol. -/
def BodyKey.proto : BodyKey → Proto.BodyKey
  | .space => .space
  | .index => .index
  | .limit => .limit
  | .offset => .offset
  | .iterator => .iterator
  | .key => .key
  | .tuple => .tuple
  | .function => .function
  | .username => .username
  | .expression => .expression

/-- The keys of `tp.h` are those of the protocol. -/
theorem BodyKey.bytes_eq (k : BodyKey) : k.bytes = encode (.uint k.proto.num) := by
  cases k <;> rfl

/-- The pieces of a body are pairs of the protocol. -/
theorem BodyKey.pair_eq (k : BodyKey) (n : UInt32) : k.pair n = (numField k.proto n.toNat).wire := by
  rw [BodyKey.pair, k.bytes_eq]
  rfl

/-- A text under a key is a pair, ... -/
theorem BodyKey.text_eq (k : BodyKey) (s : TpStr) (rest : Bytes) :
    k.bytes ++ (s.str ++ rest) = (textField k.proto s.bytes).wire ++ rest := by
  rw [k.bytes_eq, ← List.append_assoc]
  rfl

/-- ... and so is an object, once it has been appended. -/
theorem BodyKey.object_eq (k : BodyKey) (bs : Bytes) :
    k.bytes ++ bs = (Proto.Field.mk k.proto (.object bs)).wire := by
  rw [k.bytes_eq]
  rfl

/-- Pair by pair. -/
theorem bodyWire_cons (f : Proto.Field) (fields : List Proto.Field) :
    ((f :: fields).map Proto.Field.wire).flatten =
      f.wire ++ (fields.map Proto.Field.wire).flatten := rfl

/-- The body of an insert or a replace, and what is appended to it. -/
theorem store_body (space : UInt32) (bs : Bytes) :
    mapForm.min 2 ++ (BodyKey.space.pair space ++ BodyKey.tuple.bytes) ++ bs =
      Proto.bodyWire [numField .space space.toNat, ⟨.tuple, .object bs⟩] := by
  simp only [BodyKey.pair_eq, BodyKey.object_eq, List.append_assoc]
  simp only [Proto.bodyWire, bodyWire_cons, List.map_nil, List.flatten_nil, List.append_nil]
  rfl

/-- ... of a call or an evaluation. -/
theorem text_body (k : BodyKey) (s : TpStr) (bs : Bytes) :
    mapForm.min 2 ++ (k.bytes ++ (s.str ++ BodyKey.tuple.bytes)) ++ bs =
      Proto.bodyWire [textField k.proto s.bytes, ⟨.tuple, .object bs⟩] := by
  simp only [BodyKey.text_eq, BodyKey.object_eq .tuple, List.append_assoc]
  simp only [Proto.bodyWire, bodyWire_cons, List.map_nil, List.flatten_nil, List.append_nil]
  rfl

/-- The operations of an update: the key and the header of the array in one call. -/
theorem appended_updatebegin {n : UInt32} {m : List TpCall} {bs : Bytes}
    (h : appended (.encodeArray n :: m) = some bs) :
    appended (.updatebegin n :: m) = some (BodyKey.tuple.bytes ++ bs) := by
  rw [appended_cons rfl] at h
  obtain ⟨cs, hcs, rfl⟩ := Option.map_eq_some_iff.mp h
  rw [appended_cons rfl, hcs, Option.map_some, List.append_assoc]

/-- A request and what is appended to it make up the body with the pairs of the request.  By cases
on the request; what is appended is the last value of the body, or the last two. -/
theorem Ask.Calls.spec {a : Ask} {calls : List TpCall} (h : a.Calls calls) :
    ∃ c l code body bs fields, calls = c :: l ∧ c.effect = .start code body ∧
      appended l = some bs ∧ code.num.toNat = a.type.num ∧ body ++ bs = Proto.bodyWire fields ∧
      List.Forall₂ Proto.Field.Reads fields a.tpPairs ∧ fields.length < 2 ^ 32 := by
  cases h with
  | ping => exact ⟨_, [], _, _, [], [], rfl, rfl, rfl, rfl, rfl, .nil, by simp⟩
  | @select space index limit offset iterator key l h =>
    obtain ⟨bs, hl, henc⟩ := h
    refine ⟨_, l, _, _, bs, [numField .space space.toNat, numField .index index.toNat,
      numField .offset offset.toNat, numField .limit limit.toNat,
      numField .iterator iterator.toUInt32.toNat, ⟨.key, .object bs⟩], rfl, rfl, hl, rfl, ?_, ?_,
      by simp⟩
    · simp only [BodyKey.pair_eq, BodyKey.object_eq, List.append_assoc]
      simp only [Proto.bodyWire, bodyWire_cons, List.map_nil, List.flatten_nil, List.append_nil]
      rfl
    · exact .cons (numField_pair .space space) (.cons (numField_pair .index index)
        (.cons (numField_pair .offset offset) (.cons (numField_pair .limit limit)
          (.cons (numField_pair .iterator iterator.toUInt32) (.cons ⟨rfl, .object henc⟩ .nil)))))
  | @insert space tuple l h =>
    obtain ⟨bs, hl, henc⟩ := h
    exact ⟨_, l, _, _, bs, [numField .space space.toNat, ⟨.tuple, .object bs⟩], rfl, rfl, hl, rfl,
      store_body space bs, .cons (numField_pair .space space) (.cons ⟨rfl, .object henc⟩ .nil),
      by simp⟩
  | @replace space tuple l h =>
    obtain ⟨bs, hl, henc⟩ := h
    exact ⟨_, l, _, _, bs, [numField .space space.toNat, ⟨.tuple, .object bs⟩], rfl, rfl, hl, rfl,
      store_body space bs, .cons (numField_pair .space space) (.cons ⟨rfl, .object henc⟩ .nil),
      by simp⟩
  | @update space key ops n l m hkey hops =>
    obtain ⟨bs, hl, henc⟩ := hkey
    -- two arrays; the key of the second comes with its header
    obtain ⟨cs, hm, henc'⟩ := hops
    have hall := appended_append hl (appended_updatebegin hm)
    refine ⟨_, _, _, _, _, [numField .space space.toNat, ⟨.key, .object bs⟩, ⟨.tuple, .object cs⟩],
      rfl, rfl, hall, rfl, ?_, .cons (numField_pair .space space)
        (.cons ⟨rfl, .object henc⟩ (.cons ⟨rfl, .object henc'⟩ .nil)), by simp⟩
    rw [BodyKey.object_eq .tuple cs]
    simp only [BodyKey.pair_eq, List.append_assoc]
    rw [← List.append_assoc BodyKey.key.bytes, BodyKey.object_eq]
    simp only [Proto.bodyWire, bodyWire_cons, List.map_nil, List.flatten_nil, List.append_nil]
    rfl
  | @call function args l h =>
    obtain ⟨bs, hl, henc⟩ := h
    exact ⟨_, l, _, _, bs, [textField .function function.bytes, ⟨.tuple, .object bs⟩], rfl, rfl, hl,
      rfl, text_body .function function bs,
      .cons (textField_reads .function function.lt) (.cons ⟨rfl, .object henc⟩ .nil), by simp⟩
  | @eval expr args l h =>
    obtain ⟨bs, hl, henc⟩ := h
    exact ⟨_, l, _, _, bs, [textField .expression expr.bytes, ⟨.tuple, .object bs⟩], rfl, rfl, hl,
      rfl, text_body .expression expr bs,
      .cons (textField_reads .expression expr.lt) (.cons ⟨rfl, .object henc⟩ .nil), by simp⟩

/-! ## §5 — the two agree. -/

/-- **The encoders agree.**  In a buffer with room for them, a request of `tp.h`, the calls that
append its arrays, and `tp_reqid` all succeed and leave one frame; the call of `libtnt` for the same
request with the same id hands over its vector.  What follows the two prefixes are packages that
decode to the same type, the same sync and, an absent index read as 0, the same pairs, with no key
twice.  The prefixes are those of the protocol: of `tp.h` for a package below `2^32` bytes, of
`libtnt` for every package that fits a `size_t`.  The calls that append an array may do so in any
pieces and widths, and the object of `libtnt` may have it in others; so what is compared is what the
two packages decode to. -/
theorem encoders_agree [Mpsize] [Digest] {a : Ask} {calls : List TpCall} (hcalls : a.Calls calls)
    {d : Direct} (hdirect : a.Tnt d) (reqid : UInt32) {R : Option Reserve} (hR : Trusted R) (s : Nat)
    {buf : Bytes} (hroom : needs (calls ++ [.reqid reqid]) ≤ buf.length) :
    ∃ t pre package pre' v pairs pairs',
      runCalls R (calls ++ [.reqid reqid]) (tpInit s buf) = some t ∧ t.bytes = pre ++ package ∧
      d.exec reqid.toUInt64 = some (.writev (pre' :: v), reqid.toUInt64 + 1) ∧
      Proto.Decodes package a.type reqid.toNat pairs ∧
      Proto.Decodes v.flatten a.type reqid.toNat pairs' ∧
      (pairs.map Prod.fst).Nodup ∧ (pairs'.map Prod.fst).Nodup ∧
      (∀ k, readWithIndex pairs k = readWithIndex pairs' k) ∧
      pre.length = 5 ∧ (package.length < 2 ^ 32 → pre = Proto.lengthPrefix package.length) ∧
      (v.flatten.length < 2 ^ 64 → pre' = Proto.lengthPrefix v.flatten.length) := by
  obtain ⟨c, l, code, body, bs, fields, rfl, hstart, happ, hcode, hbody, hreads, hfew⟩ := hcalls.spec
  obtain ⟨htype, htexts, hacc, hreads', hfew'⟩ := hdirect.spec
  obtain ⟨t, hrun, hbytes⟩ := runCalls_frame hR hstart happ reqid hroom (s := s)
  obtain ⟨v, hexec, hv⟩ := d.exec_sends reqid.toUInt64 htexts hacc
  have hsync : reqid.toUInt64.toNat = reqid.toNat := UInt32.toNat_toUInt64 reqid
  rw [hsync, htype] at hv
  set f : Frame := ⟨code, reqid, body ++ bs⟩ with hf
  -- the frame of `tp.h`, whose sync has five bytes
  have hpackage : Proto.Decodes f.payload a.type reqid.toNat a.tpPairs := by
    have hdec := Proto.decodes_of_encodes (head_encodes hcode reqid)
      (Proto.bodyWire_encodes hreads hfew)
    rwa [← hbody, List.append_assoc] at hdec
  -- the vector of `libtnt`
  have hpackage' : Proto.Decodes v.flatten a.type reqid.toNat a.pairs := by
    have hlt := reqid.toNat_lt
    rw [hv]
    exact Proto.packageWire_decodes a.type (by omega) hreads' hfew'
  refine ⟨t, five f.payload.length, f.payload, _, v, a.tpPairs, a.pairs, hrun, hbytes, hexec,
    hpackage, hpackage', a.pairs_nodup.2, a.pairs_nodup.1, fun k => (a.pairs_agree k).symm,
    five_length _, ?_, ?_⟩
  · intro hlt
    rw [Proto.lengthPrefix, if_pos hlt]
    rfl
  · intro hlt
    rw [← List.length_flatten, mpEncodeLuint32_eq hlt]

/-- The key `[7]` in space 512, and `["=", 2, nil]` with `tp_op`; the objects of `libtnt` have wider
headers. -/
theorem encoders_agree_update :
    let calls : List TpCall := [.update 512, .key 1, .encodeUint 7, .updatebegin 1, .op 0x3d 2,
      .encodeNil, .reqid 5]
    let d : Direct := .update 512 0 (objectOf [0xdd, 0, 0, 0, 1, 7])
      (objectOf [0xdc, 0, 1, 0x93, 0xa1, 0x3d, 2, 0xc0])
    ∃ t iov package pairs,
      @runCalls Mpsize.reference none calls (tpInit 0 (List.replicate 40 0)) = some t ∧
      @Direct.exec Mpsize.reference.toMsgpuck zeroDigest 5 d = some (.writev iov, 6) ∧
      Proto.Decodes package .update 5 pairs ∧ t.bytes.drop 5 = package := by
  let _ := Mpsize.reference
  let _ := zeroDigest
  have hop : Encodes (.array [.str [0x3d], .uint 2, .nil]) [0x93, 0xa1, 0x3d, 2, 0xc0] :=
    encodes_encodeWith packed_sound (.array [.str [0x3d], .uint 2, .nil])
      (by simp [Value.Fits, FitsAll])
  have hseven : EncodesAll [.uint 7] [7] := .singleton (encodes_uint (n := 7) (by decide))
  have hkey : Appends [.key 1, .encodeUint 7] [.uint 7] :=
    ⟨[0x91, 7], rfl, @Encodes.array 0x91 (.fix 1) _ [] _ (by decide) ⟨rfl, rfl⟩ hseven⟩
  have hops : Appends [.encodeArray 1, .op 0x3d 2, .encodeNil]
      [.array [.str [0x3d], .uint 2, .nil]] :=
    ⟨[0x91, 0x93, 0xa1, 0x3d, 2, 0xc0], rfl,
      @Encodes.array 0x91 (.fix 1) _ [] _ (by decide) ⟨rfl, rfl⟩ (.singleton hop)⟩
  have hdirect : Ask.Tnt (.update 512 [.uint 7] [.array [.str [0x3d], .uint 2, .nil]])
      (.update 512 0 (objectOf [0xdd, 0, 0, 0, 1, 7])
        (objectOf [0xdc, 0, 1, 0x93, 0xa1, 0x3d, 2, 0xc0])) :=
    .update (@Encodes.array 0xdd (.wide 4) _ [0, 0, 0, 1] _ (by decide) ⟨rfl, by decide⟩ hseven)
      (@Encodes.array 0xdc (.wide 2) _ [0, 1] _ (by decide) ⟨rfl, by decide⟩ (.singleton hop))
  obtain ⟨t, pre, package, pre', v, pairs, -, hrun, hbytes, hexec, hdec, -, -, -, -, hpre, -⟩ :=
    encoders_agree (.update hkey hops) hdirect 5 (R := none) (by intro r h; cases h) 0
      (show _ ≤ (List.replicate 40 (0 : UInt8)).length by decide)
  refine ⟨t, pre' :: v, package, pairs, hrun, hexec, hdec, ?_⟩
  rw [hbytes, ← hpre, List.drop_left]

end TarantoolC.Tp
