/-
# TarantoolC.Request.Scramble — the answer to the server's challenge.

`chap-sha1`: the server keeps `h = SHA1(SHA1(password))` and sends a salt; the client sends
`SHA1(password) xor SHA1(salt ++ h)`.  The server takes its own `SHA1(salt ++ h)` off again, hashes,
and compares with `h`.

The code has two copies of the computation, `tnt_scramble_prepare` and `tpi_scramble_prepare`; both
feed SHA-1 update by update and end with a loop that overwrites one of the strings it reads.  Here
this is followed step by step and shown to be the function the encoders are modelled with
(`scramblePrepare_eq`).  `tntScramble_verifies`: what it computes passes the server's check.

What makes the steps worth following is that buffers are used twice.  `hash2` is the digest of the
digest first and the digest of it with the salt afterwards, and the target of the last loop is also
what the loop reads from.  `xorInto` therefore runs over ONE string, byte by byte, and `xorInto_eq`
says that no byte is read after it was overwritten.

The server's side is in `ServerAccepts`: it keeps only `h` and cannot compute the scramble itself.
That its check comes out right is the cancellation of `xor`, for strings of the length of a digest.
-/
import TarantoolC.Request.Direct

namespace TarantoolC.Request

open MsgPack Msgpuck Proto Object Digest

/-! ## §1 — the code. -/

/-- `TNT_SCRAMBLE_SIZE` and `SCRAMBLE_SIZE`. -/
def scrambleSize : Nat := 20

/-- `SHA1_CTX`: the bytes it was fed. -/
abbrev Sha1Ctx := Bytes

def sha1Init : Sha1Ctx := []

def sha1Update (ctx : Sha1Ctx) (data : Bytes) : Sha1Ctx := ctx ++ data

def sha1Final [Digest] (ctx : Sha1Ctx) : Bytes := sha1 ctx

/-- The loop of `tnt_xor` and `tpi_xor`, for a target that is also the right operand: `i` bytes are
done and `n` are left.  `none` is a read behind a string. -/
def xorInto (left : Bytes) : Nat → Nat → Bytes → Option Bytes
  | 0, _, right => some right
  | n + 1, i, right => do
    let l ← left[i]?
    let r ← right[i]?
    xorInto left n (i + 1) (right.set i (l ^^^ r))

/-- The body of the two functions. -/
def scramblePrepare [Digest] (salt pass : Bytes) : Option Bytes := do
  let hash1 := sha1Final (sha1Update sha1Init pass)
  let hash2 := sha1Final (sha1Update sha1Init hash1)
  guard (scrambleSize ≤ salt.length)
  let out := sha1Final (sha1Update (sha1Update sha1Init (salt.take scrambleSize)) hash2)
  xorInto hash1 scrambleSize 0 out

/-- `tpi_scramble_prepare`. -/
def tpiScramblePrepare [Digest] (salt password : Bytes) : Option Bytes :=
  scramblePrepare salt password

/-- The check of a server that keeps only `h`. -/
def ServerAccepts [Digest] (h salt out : Bytes) : Prop :=
  sha1 (tntXor out (sha1 (salt.take scrambleSize ++ h))) = h

/-! ## §2 — the loop. -/

/-- The loop is behind the bytes it has done. -/
theorem xorInto_spec {left : Bytes} (n : Nat) {done rest : Bytes} (hleft : left.length = done.length + n)
    (hrest : rest.length = n) :
    xorInto left n done.length (done ++ rest) =
      some (done ++ tntXor (left.drop done.length) rest) := by
  induction n generalizing done rest with
  | zero =>
    have hnil : rest = [] := List.eq_nil_of_length_eq_zero hrest
    rw [hnil, xorInto, tntXor, List.zipWith_nil_right]
  | succ n ih =>
    obtain ⟨r, rest, rfl⟩ := List.exists_cons_of_length_eq_add_one hrest
    have hlt : done.length < left.length := by omega
    have hget : left[done.length]? = some left[done.length] := List.getElem?_eq_getElem hlt
    have hto : (done ++ r :: rest)[done.length]? = some r := by simp
    have hset : (done ++ r :: rest).set done.length (left[done.length] ^^^ r) =
        (done ++ [left[done.length] ^^^ r]) ++ rest := by simp
    have hdone : (done ++ [left[done.length] ^^^ r]).length = done.length + 1 := by simp
    have hturn := @ih (done ++ [left[done.length] ^^^ r]) rest (by rw [hdone]; omega)
      (by rw [List.length_cons] at hrest; omega)
    rw [hdone] at hturn
    simp only [xorInto, hget, hto, bind, Option.bind_some, hset, hturn]
    rw [tntXor, tntXor, List.drop_eq_getElem_cons hlt, List.zipWith_cons_cons, List.append_assoc]
    rfl

/-- What is overwritten in place is the xor of the two strings. -/
theorem xorInto_eq {left right : Bytes} (hleft : left.length = scrambleSize)
    (hright : right.length = scrambleSize) :
    xorInto left scrambleSize 0 right = some (tntXor left right) := by
  have h := @xorInto_spec left scrambleSize [] right (by simpa using hleft) hright
  simpa using h

/-- Xor with the same string twice. -/
theorem tntXor_cancel {x y : Bytes} (h : x.length ≤ y.length) : tntXor (tntXor x y) y = x := by
  induction x generalizing y with
  | nil => rfl
  | cons a x ih =>
    cases y with
    | nil => exact absurd h (by simp)
    | cons b y =>
      have hrest := @ih y (Nat.le_of_succ_le_succ h)
      simp only [tntXor, List.zipWith_cons_cons] at hrest ⊢
      rw [hrest, UInt8.xor_assoc, UInt8.xor_self, UInt8.xor_zero]

/-! ## §3 — the scramble. -/

section Scramble

variable [Digest]

/-- **The steps of the code compute the function of the encoders.** -/
theorem scramblePrepare_eq (salt pass : Bytes) :
    scramblePrepare salt pass = tntScramblePrepare salt pass := by
  unfold scramblePrepare tntScramblePrepare scrambleSize
  by_cases hsalt : 20 ≤ salt.length
  · simp only [guard, if_pos hsalt, bind, Option.bind_some, pure]
    exact xorInto_eq (sha1_length _) (sha1_length _)
  · simp only [guard, if_neg hsalt]
    rfl

/-- The pairs of `tnt_auth_raw` for a user with a password. -/
def authPairs (user scramble : Bytes) : List (BodyKey × Value) :=
  [(.username, .str user), (.tuple, .array [.str chapSha1, .str scramble])]

omit [Digest] in
/-- What a text takes, ... -/
theorem encode_str_length_le (s : Bytes) : (encode (.str s)).length ≤ s.length + 5 := by
  have hlen : (encode (.str s)).length = (strForm.min s.length).length + s.length :=
    List.length_append
  have hform := strForm_min_length_le s.length
  omega

omit [Digest] in
/-- ... what a pair takes, ... -/
theorem wire_length_le {k : BodyKey} {p : Payload} :
    (Field.wire ⟨k, p⟩).length ≤ 9 + p.wire.length := by
  have hkey : (encode (.uint k.num)).length ≤ 9 := by
    cases k <;> decide
  have hlen : (Field.wire ⟨k, p⟩).length = (encode (.uint k.num)).length + p.wire.length :=
    List.length_append
  omega

/-- An authentication request is the name of the user and little more. -/
theorem authPackage_length_le (user pass salt : Bytes) (hguest : ¬ isGuest (some user))
    (reqid : UInt64) :
    (packageWire .auth reqid.toNat (Direct.auth (some user) pass salt).fields).length ≤
      user.length + 80 := by
  have hhdr : (encode (header .auth reqid.toNat)).length ≤ 13 := by
    let _ := Msgpuck.reference
    rw [← headerBytes_eq]
    exact headerBytes_length_le .auth reqid
  set scramble := tntXor (sha1 pass) (sha1 ((base64Decode salt).take 20 ++ sha1 (sha1 pass)))
    with hscramble
  have h20 : scramble.length = 20 := scramble_length pass _
  have hcred : credentials (some user) pass salt = .array [.str chapSha1, .str scramble] := by
    rw [credentials, if_neg hguest]
  -- a header of one byte, the name of the mechanism and 20 bytes
  have harray : (encode (.array [.str chapSha1, .str scramble])).length ≤ 40 := by
    have hparts : (encode (.array [.str chapSha1, .str scramble])).length =
        1 + ((encode (.str chapSha1)).length + (encode (.str scramble)).length) := by
      show (arrayForm.min 2 ++ (encode (.str chapSha1) ++ (encode (.str scramble) ++ []))).length = _
      rw [List.length_append, List.length_append, List.append_nil]
      rfl
    have hword := encode_str_length_le chapSha1
    have hbytes := encode_str_length_le scramble
    have hchap : chapSha1.length = 9 := rfl
    omega
  have hname := encode_str_length_le user
  have huser : (textField .username user).wire.length ≤ 9 + (encode (.str user)).length :=
    wire_length_le
  have htuple := @wire_length_le .tuple (.value (credentials (some user) pass salt))
  rw [Payload.wire, hcred] at htuple
  -- everything but the name of the user is short
  have hbody : (packageWire .auth reqid.toNat (Direct.auth (some user) pass salt).fields).length =
      (encode (header .auth reqid.toNat)).length + (1 + ((textField .username user).wire.length +
        (Field.wire ⟨.tuple, .value (credentials (some user) pass salt)⟩).length)) := by
    show (encode (header .auth reqid.toNat) ++ (mapForm.min 2 ++ ((textField .username user).wire ++
      (Field.wire ⟨.tuple, .value (credentials (some user) pass salt)⟩ ++ [])))).length = _
    rw [List.length_append, List.length_append, List.length_append, List.append_nil]
    rfl
  rw [hbody, hcred]
  omega

/-- ... and that a package of them has a length that the prefix can hold. -/
theorem authPackage_length {user : Bytes} (hlen : user.length < 2 ^ 32) (pass salt : Bytes)
    (hguest : ¬ isGuest (some user)) (reqid : UInt64) :
    (packageWire .auth reqid.toNat (Direct.auth (some user) pass salt).fields).length < 2 ^ 64 := by
  have hle := authPackage_length_le user pass salt hguest reqid
  omega

/-- What a server reads out of it. -/
theorem authFields_read {user : Bytes} (hguest : ¬ isGuest (some user)) (hlen : user.length < 2 ^ 32)
    (pass salt : Bytes) :
    List.Forall₂ Field.Reads (Direct.auth (some user) pass salt).fields
      (authPairs user (tntXor (sha1 pass) (sha1 ((base64Decode salt).take 20 ++ sha1 (sha1 pass))))) := by
  have hcred : credentials (some user) pass salt = .array [.str chapSha1,
      .str (tntXor (sha1 pass) (sha1 ((base64Decode salt).take 20 ++ sha1 (sha1 pass))))] := by
    rw [credentials, if_neg hguest]
  have h20 := scramble_length pass ((base64Decode salt).take 20 ++ sha1 (sha1 pass))
  have hchap : chapSha1.length = 9 := rfl
  show List.Forall₂ Field.Reads [textField .username user,
    ⟨.tuple, .value (credentials (some user) pass salt)⟩] _
  rw [hcred]
  refine .cons ⟨rfl, .value ?_⟩ (.cons ⟨rfl, .value ?_⟩ .nil)
  · simpa [Value.Fits] using hlen
  · simp [Value.Fits, FitsAll, h20, hchap]

/-- **The scramble is what the server checks for.**  For every password and every salt of at least
20 bytes both copies of the code compute the same 20 bytes; a server that keeps the double hash of
the password accepts them; and an authentication request of every user but `guest` carries exactly
these bytes behind `chap-sha1`.  The loop of `tnt_xor` runs over one of its own operands, so that it
is followed byte by byte; the check of the server then is a cancellation. -/
theorem tntScramble_verifies [Msgpuck] (pass : Bytes) :
    (∀ salt : Bytes, scrambleSize ≤ salt.length → ∃ out, scramblePrepare salt pass = some out ∧
      tntScramblePrepare salt pass = some out ∧ tpiScramblePrepare salt pass = some out ∧
      out.length = scrambleSize ∧
      ServerAccepts (sha1 (sha1 pass)) salt out) ∧
    ∀ (reqid : UInt64) (user base64Salt : Bytes), ¬ isGuest (some user) → user.length < 2 ^ 32 →
      scrambleSize ≤ (base64Decode base64Salt).length → ∃ out iov,
        scramblePrepare (base64Decode base64Salt) pass = some out ∧
        tntAuthRaw reqid (some user) pass base64Salt = some (.writev iov, reqid + 1) ∧
        Carries iov.flatten .auth reqid.toNat (authPairs user out) := by
  have hout : ∀ salt : Bytes, scrambleSize ≤ salt.length → scramblePrepare salt pass =
      some (tntXor (sha1 pass) (sha1 (salt.take 20 ++ sha1 (sha1 pass)))) := by
    intro salt hsalt
    rw [scramblePrepare_eq, tntScramblePrepare_eq hsalt]
  refine ⟨?_, ?_⟩
  · intro salt hsalt
    refine ⟨_, hout salt hsalt, tntScramblePrepare_eq hsalt pass, hout salt hsalt,
      scramble_length _ _, ?_⟩
    have hle : (sha1 pass).length ≤ (sha1 (salt.take 20 ++ sha1 (sha1 pass))).length := by
      rw [sha1_length, sha1_length]
    show sha1 (tntXor (tntXor _ _) (sha1 (salt.take 20 ++ _))) = _
    rw [tntXor_cancel hle]
  · intro reqid user base64Salt hguest hlen hsalt
    have hacc : (Direct.auth (some user) pass base64Salt).Accepts := .inr hsalt
    have htexts : (Direct.auth (some user) pass base64Salt).TextsFit := by
      intro t ht
      obtain rfl := Option.some.inj ht
      exact hlen
    have hsize := authPackage_length hlen pass base64Salt hguest reqid
    obtain ⟨hiff, hwire⟩ := Direct.exec_wire (.auth (some user) pass base64Salt) reqid htexts hsize
    obtain ⟨iov, reqid', hexec⟩ := hiff.mp hacc
    obtain ⟨rfl, hflat, -⟩ := hwire iov reqid' hexec
    refine ⟨_, iov, hout _ hsalt, hexec, ?_⟩
    -- the pairs a server reads are the ones that were written
    rw [hflat]
    exact messageWire_carries .auth reqid.toNat_lt (authFields_read hguest hlen pass base64Salt)
      (show 2 < 2 ^ 32 by decide)

end Scramble

/-- The user `u`, a salt of zeros, and a hash of zeros. -/
theorem tntScramble_verifies_user :
    ∃ out iov, @scramblePrepare zeroDigest (List.replicate 20 0) [0x70] = some out ∧
      @ServerAccepts zeroDigest (List.replicate 20 0) (List.replicate 20 0) out ∧
      @tntAuthRaw Msgpuck.reference zeroDigest 7 (some [0x75]) [0x70] (List.replicate 20 0) =
        some (.writev iov, 8) ∧
      Carries iov.flatten .auth 7 (authPairs [0x75] out) := by
  obtain ⟨hserver, hauth⟩ := @tntScramble_verifies zeroDigest Msgpuck.reference [0x70]
  obtain ⟨out, hout, -, -, -, hok⟩ := hserver (List.replicate 20 0) (by decide)
  obtain ⟨out', iov, hout', hexec, hcarries⟩ := hauth 7 [0x75] (List.replicate 20 0) (by decide)
    (by decide) (by decide)
  obtain rfl : out = out' := Option.some.inj (hout.symm.trans hout')
  exact ⟨out, iov, hout, hok, hexec, hcarries⟩

end TarantoolC.Request
