/-
# TarantoolC.Request.Challenge — the challenge, with the code that hashes and decodes.

The encoders are modelled over `Digest`, SHA-1 and base64 as functions.  Here `Digest` is made of the
two files of `third_party/`, and `tnt_scramble_prepare` is followed call by call on a context in
memory: the context is not cleared by `SHA1Init`, the salt lies in an array of 64 bytes of which the
decoder writes the front.  `scrambleOf_eq`: what was in that memory before is of no account.

`challenge_answered` is the whole of `chap-sha1`: the salt as the server wrote it into the greeting,
the request of `tnt_auth`, and the check of the server.

So the property holds of the program down to the bits: base64 by `TarantoolC.Base64`, SHA-1 by
`TarantoolC.Sha1.Code` against the standard's digest, and the request by
`TarantoolC.Request.Direct`.  What remains an assumption is on the server's side only, that it does
what `ServerAccepts` says and that its greeting has a salt of at least 20 bytes in it
(`Challenges`).
-/
import TarantoolC.Request.Scramble
import TarantoolC.Sha1.Stream
import TarantoolC.Base64

namespace TarantoolC.Request

open MsgPack Msgpuck Proto Object

/-! ## §1 — the code. -/

/-- `TNT_VERSION_SIZE`. -/
def versionSize : Nat := 64

/-- `TNT_SALT_SIZE`. -/
def saltSize : Nat := 44

/-- `SHA1Init`, a call of `SHA1Update` for each piece, `SHA1Final`; `buffer` is what is in the
memory of the context. -/
def sha1Of (o : Sha1.ByteOrder) (buffer : Sha1.Buffer) (pieces : List Bytes) : Option Bytes :=
  (pieces.foldlM (Sha1.sha1Update o) (Sha1.sha1Init buffer)).bind (Sha1.sha1Final o)

/-- The context of `tnt_scramble_prepare`, at its three uses, and the array for the salt. -/
structure Scratch where
  order : Sha1.ByteOrder
  ctx₁ : Sha1.Buffer
  ctx₂ : Sha1.Buffer
  ctx₃ : Sha1.Buffer
  salt : { mem : Bytes // mem.length = 64 }

/-- `tnt_scramble_prepare`. -/
def scrambleWith (m : Scratch) (salt pass : Bytes) : Option Bytes := do
  let hash1 ← sha1Of m.order m.ctx₁ [pass]
  let hash2 ← sha1Of m.order m.ctx₂ [hash1]
  guard (scrambleSize ≤ salt.length)
  let out ← sha1Of m.order m.ctx₃ [salt.take scrambleSize, hash2]
  xorInto hash1 scrambleSize 0 out

/-- What `tnt_auth_raw` and `tp_auth` do for a scramble: `base64_decode(base64_salt, TNT_SALT_SIZE,
salt, 64)` and `tnt_scramble_prepare`. -/
def scrambleOf (m : Scratch) (base64Salt pass : Bytes) : Option Bytes := do
  let (salt, _) ← Base64.base64Decode (base64Salt.take saltSize) m.salt.val 64
  scrambleWith m salt pass

/-- `third_party/sha1.c` and `third_party/base64.c`. -/
@[reducible] def codeDigest : Digest where
  sha1 := Sha1.sha1
  sha1_length := Sha1.sha1_length
  base64Decode base64Salt :=
    ((Base64.base64Decode (base64Salt.take saltSize) (List.replicate 64 0) 64).map
      fun r => r.1.take r.2).getD []

/-- `tnt_auth`: the salt is in the second line of the greeting. -/
def tntAuth [Msgpuck] [Digest] (reqid : UInt64) (user : Option Bytes) (pass greeting : Bytes) :
    Option (Sent × UInt64) :=
  tntAuthRaw reqid user pass (greeting.drop versionSize)

/-- A greeting that challenges with a salt: its second line begins with a base64 text of it. -/
def Challenges (greeting salt : Bytes) : Prop :=
  Base64.Spells ((greeting.drop versionSize).take saltSize) salt

/-! ## §2 — the scramble. -/

/-- Whatever the context had in its buffer, the digest is that of the pieces together. -/
theorem sha1Of_eq (o : Sha1.ByteOrder) (buffer : Sha1.Buffer) {pieces : List Bytes}
    (hlen : ∀ p ∈ pieces, p.length + 63 < 2 ^ 32) :
    sha1Of o buffer pieces = some (Sha1.sha1 pieces.flatten) := by
  obtain ⟨context, hrun, hholds⟩ := Sha1.sha1Update_pieces o buffer pieces hlen
  rw [sha1Of, hrun]
  exact Sha1.sha1Final_spec o hholds

/-- The salt of a challenge leaves room in the array: 44 characters are 33 bytes at most. -/
theorem Challenges.length_le {greeting salt : Bytes} (h : Challenges greeting salt) :
    salt.length ≤ 33 := by
  obtain ⟨-, t, -, hspread⟩ := h
  have hbits := congrArg List.length hspread
  rw [Regroup.spread_length, List.length_append, Base64.byteBits_length] at hbits
  have hcount : (Base64.sextets ((greeting.drop versionSize).take saltSize)).length ≤ 44 := by
    refine (List.length_filterMap_le _ _).trans ?_
    exact List.length_take_le _ _
  omega

/-- The client decodes the salt that the server encoded. -/
theorem Challenges.base64Decode_eq {greeting salt : Bytes} (h : Challenges greeting salt) :
    codeDigest.base64Decode (greeting.drop versionSize) = salt := by
  have hle := h.length_le
  obtain ⟨mem', hdec, -, hfirst, -⟩ := @Base64.Spells.decode _ _ h (List.replicate 64 0)
    (by rw [List.length_replicate]; omega)
  rw [List.length_replicate] at hdec
  show ((Base64.base64Decode _ _ 64).map _).getD [] = salt
  rw [hdec]
  exact hfirst

/-- The calls one after the other. -/
theorem scrambleWith_eq {m : Scratch} {salt pass hash1 hash2 out : Bytes}
    (h₁ : sha1Of m.order m.ctx₁ [pass] = some hash1) (h₂ : sha1Of m.order m.ctx₂ [hash1] = some hash2)
    (hsalt : scrambleSize ≤ salt.length)
    (h₃ : sha1Of m.order m.ctx₃ [salt.take scrambleSize, hash2] = some out) :
    scrambleWith m salt pass = xorInto hash1 scrambleSize 0 out := by
  simp only [scrambleWith, h₁, h₂, h₃, guard, if_pos hsalt, bind, Option.bind_some, pure]

/-- **What was in memory before is of no account**, nor is the byte order of the machine. -/
theorem scrambleOf_eq (m : Scratch) {greeting salt pass : Bytes} (h : Challenges greeting salt)
    (hsalt : scrambleSize ≤ salt.length) (hpass : pass.length < 2 ^ 31) :
    scrambleOf m (greeting.drop versionSize) pass =
      some (tntXor (Sha1.sha1 pass)
        (Sha1.sha1 (salt.take scrambleSize ++ Sha1.sha1 (Sha1.sha1 pass)))) := by
  have hle := h.length_le
  have h20 : ∀ bs, (Sha1.sha1 bs).length = 20 := Sha1.sha1_length
  have hscramble : scrambleSize = 20 := rfl
  obtain ⟨mem', hdec, hmem', hfirst, -⟩ := @Base64.Spells.decode _ _ h m.salt.val
    (by rw [m.salt.property]; omega)
  rw [m.salt.property] at hdec hmem'
  -- the first 20 bytes of the array are those of the salt
  have htake : mem'.take scrambleSize = salt.take scrambleSize := by
    rw [← hfirst, List.take_take, Nat.min_eq_left hsalt]
  have htakelen : (salt.take scrambleSize).length ≤ 20 := List.length_take_le _ _
  have h₁ := @sha1Of_eq m.order m.ctx₁ [pass] (by simp; omega)
  have h₂ := @sha1Of_eq m.order m.ctx₂ [Sha1.sha1 pass] (by simp [h20])
  have h₃ := @sha1Of_eq m.order m.ctx₃ [salt.take scrambleSize, Sha1.sha1 (Sha1.sha1 pass)] (by
    intro p hp
    rcases List.mem_pair.mp hp with rfl | rfl
    · omega
    · rw [h20]
      decide)
  rw [List.flatten_singleton] at h₁ h₂
  rw [List.flatten_cons, List.flatten_singleton] at h₃
  have hroom : scrambleSize ≤ mem'.length := by omega
  have hdecoded : scrambleOf m (greeting.drop versionSize) pass = scrambleWith m mem' pass := by
    rw [scrambleOf, hdec]
    rfl
  rw [← htake] at h₃
  rw [hdecoded, scrambleWith_eq h₁ h₂ hroom h₃, htake]
  exact xorInto_eq (h20 _) (h20 _)

/-! ## §3 — the whole exchange. -/

/-- What a server with a salt of 32 bytes writes: a line, and the text of the salt in the next. -/
theorem challenges_of_encode {version salt line : Bytes} {outLen : Nat}
    (hversion : version.length = versionSize) (hsalt : salt.length = 32) (hout : 45 ≤ outLen) :
    Challenges (version ++ (Base64.base64Encode salt outLen).1 ++ line) salt := by
  have hroom : Base64.RoomFor salt.length outLen := by
    rw [Base64.RoomFor, Base64.textLength, hsalt]
    omega
  obtain ⟨text, hrun, hlen, hspells⟩ := Base64.base64Encode_spells hroom
  have h44 : text.length = saltSize := by
    rw [hlen, hsalt]
    rfl
  rw [Challenges, hrun, List.append_assoc, ← hversion, List.drop_left, ← h44, List.take_left]
  exact hspells

/-- The scramble for a salt and a password. -/
def scrambleFor (salt pass : Bytes) : Bytes :=
  tntXor (Sha1.sha1 pass) (Sha1.sha1 (salt.take scrambleSize ++ Sha1.sha1 (Sha1.sha1 pass)))

/-- The scramble, for the digest of the two files. -/
theorem scrambleFor_accepted (salt pass : Bytes) :
    @ServerAccepts codeDigest (Sha1.sha1 (Sha1.sha1 pass)) salt (scrambleFor salt pass) := by
  have hle : (Sha1.sha1 pass).length ≤
      (Sha1.sha1 (salt.take scrambleSize ++ Sha1.sha1 (Sha1.sha1 pass))).length := by
    rw [Sha1.sha1_length, Sha1.sha1_length]
  show Sha1.sha1 (tntXor (tntXor _ _) (Sha1.sha1 (salt.take scrambleSize ++ _))) = _
  rw [tntXor_cancel hle]

/-- The request of `tnt_auth`. -/
def authWire (reqid : UInt64) (user pass greeting : Bytes) : Bytes :=
  messageWire .auth reqid.toNat
    (@Direct.fields codeDigest (.auth (some user) pass (greeting.drop versionSize)))

/-- What `tnt_auth` hands to the stream. -/
theorem tntAuth_carries [Msgpuck] (reqid : UInt64) {greeting salt user : Bytes} (pass : Bytes)
    (h : Challenges greeting salt) (hsalt : scrambleSize ≤ salt.length) (huser : user.length < 2 ^ 31)
    (hguest : ¬ isGuest (some user)) :
    ∃ iov, @tntAuth _ codeDigest reqid (some user) pass greeting = some (.writev iov, reqid + 1) ∧
      iov.flatten = authWire reqid user pass greeting ∧
      Carries iov.flatten .auth reqid.toNat (authPairs user (scrambleFor salt pass)) := by
  let _ := codeDigest
  have hshort : user.length < 2 ^ 32 := by omega
  have hdecoded := h.base64Decode_eq
  have hroom : 20 ≤ (Digest.base64Decode (greeting.drop versionSize)).length := by
    rw [hdecoded]
    exact hsalt
  obtain ⟨v, hexec, hflat⟩ := @tntAuthRaw_sends _ _ reqid (some user) pass _
    (fun u hu => by cases hu; exact hshort) (.inr hroom)
  have hsize := authPackage_length hshort pass (greeting.drop versionSize) hguest reqid
  obtain ⟨iov, hsend, hwire⟩ := sendPackage_wire hflat hsize
  have hcarries := messageWire_carries .auth reqid.toNat_lt
    (authFields_read hguest hshort pass (greeting.drop versionSize)) (show 2 < 2 ^ 32 by decide)
  refine ⟨iov, ?_, hwire, ?_⟩
  · rw [tntAuth, hexec, hsend]
  · rw [← hwire, hdecoded] at hcarries
    exact hcarries

/-- **The challenge is answered.**  For every greeting with a text of a salt of 20 bytes or more,
every password and every user but `guest`: whatever is in the memory of the contexts and of the
array for the salt, and on machines of both byte orders, the scramble is computed; `tnt_auth` sends
a request that carries it behind `chap-sha1`; and a server that keeps the double hash of the
password and the salt itself accepts it.  It is put together of parts proved elsewhere, and none of
them is taken on trust: the decoder stops at the right byte, the two calls of SHA-1 on one context
do not disturb each other, the xor is undone by the server. -/
theorem challenge_answered [Msgpuck] (m : Scratch) (reqid : UInt64) {greeting salt pass user : Bytes}
    (h : Challenges greeting salt) (hsalt : scrambleSize ≤ salt.length)
    (hpass : pass.length < 2 ^ 31) (huser : user.length < 2 ^ 31) (hguest : ¬ isGuest (some user)) :
    ∃ out iov, scrambleOf m (greeting.drop versionSize) pass = some out ∧
      @tntAuth _ codeDigest reqid (some user) pass greeting = some (.writev iov, reqid + 1) ∧
      Carries iov.flatten .auth reqid.toNat (authPairs user out) ∧
      @ServerAccepts codeDigest (Sha1.sha1 (Sha1.sha1 pass)) salt out := by
  obtain ⟨iov, hsend, -, hcarries⟩ := tntAuth_carries reqid pass h hsalt huser hguest
  exact ⟨scrambleFor salt pass, iov, scrambleOf_eq m h hsalt hpass, hsend, hcarries,
    scrambleFor_accepted salt pass⟩

/-- A salt of sevens, the user `u` and the password `p`. -/
theorem challenge_answered_sevens :
    ∃ out iov,
      scrambleOf ⟨.little, Sha1.zeros, Sha1.zeros, Sha1.zeros, Sha1.zeros⟩
        ((List.replicate 64 32 ++ (Base64.base64Encode (List.replicate 32 7) 45).1 ++ [10]).drop
          versionSize) [0x70] = some out ∧
      @tntAuth Msgpuck.reference codeDigest 7 (some [0x75]) [0x70]
        (List.replicate 64 32 ++ (Base64.base64Encode (List.replicate 32 7) 45).1 ++ [10]) =
          some (.writev iov, 8) ∧
      Carries iov.flatten .auth 7 (authPairs [0x75] out) ∧
      @ServerAccepts codeDigest (Sha1.sha1 (Sha1.sha1 [0x70])) (List.replicate 32 7) out :=
  @challenge_answered Msgpuck.reference ⟨.little, Sha1.zeros, Sha1.zeros, Sha1.zeros, Sha1.zeros⟩ 7
    _ _ _ _ (challenges_of_encode List.length_replicate List.length_replicate (Nat.le_refl 45))
    (by decide) (by decide) (by decide) (by decide)

end TarantoolC.Request
