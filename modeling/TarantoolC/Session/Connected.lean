/-
# TarantoolC.Session.Connected — a session behind a login.

`TarantoolC.Login` ends with a stream that is connected, and `TarantoolC.Session` starts with one.
`connect_serves` puts the two together: from the first byte of the greeting to the last reply.

A login leaves its own traces on the stream: the numbers of its three requests, bytes in the receive
buffer, a transport that has been read from.  What a session asks of a stream to start on is less
than that (`Start`): nothing counted, nothing to come, buffers in order.  `sessionOn` makes such a
start of any quiet stream, with a server that is done with what was sent before.
-/
import TarantoolC.Login
import TarantoolC.Session.Settle

namespace TarantoolC.Session

open MsgPack Msgpuck Proto Reply Io Net Request Schema Login

/-- A session that begins on a stream; the server is done with all that was sent before. -/
def sessionOn (s : TntStream) : Sys where
  client := ⟨s, tntIterReply, 0, [], [], []⟩
  calls := []
  numbers := 0
  delivered := s.net.io.accepted.length
  inbox := []
  requests := []

/-- A quiet stream with nothing to come is one to start on. -/
theorem sessionOn_start {s : TntStream} (hq : Quiet s) (hzero : s.wrcnt = 0)
    (hcome : s.net.toCome = []) : Start (sessionOn s) where
  client := ⟨hq.ready, hcome, hzero, rfl, rfl, rfl, rfl, rfl⟩
  iovmax := hq.iovmax
  off := hq.off
  calls := rfl
  numbers := rfl
  delivered := rfl
  inbox := rfl
  requests := rfl

/-- **From `tnt_connect` on.**  A client logs in as in `TarantoolC.Login`, to a server that says no
more than it is asked for, and goes on with calls.  Then in every state that client, network and
server come to, in whatever order they take their steps, the session is orderly, and from there it
comes to rest.  The hypotheses are those of a login that succeeds; that the server says no more than
it was asked for is what makes the stream quiet when `tnt_connect` returns. -/
theorem connect_serves [Msgpuck] {M : Memory} (hM : M.Lasts) {c : Client} {io : Transport UInt8}
    {user pass salt greeting come : Bytes} (ho : Opening c io user pass salt greeting come)
    (hpass : pass.length < 2 ^ 31) (hmin : Room c.conn.s.net 64)
    (hroom : Room c.conn.s.net (authWire (firstNumber c) user pass greeting).length)
    {w ws wi : WireReply} (hcode : w.code = 0) (hnone : ¬ w.HasError) {spaces : List SpaceRow}
    {indexes : List IndexRow} (hs : Answers ws 127 (spaces.map SpaceRow.value))
    (hi : Answers wi 128 (indexes.map IndexRow.value))
    {replies : Bytes} (hcome : come = w.bytes ++ replies) (hreplies : Coming ws wi [] replies) :
    ∃ c', @tntConnect _ codeDigest M (.ok, io) c = some (0, c') ∧
      c'.conn.schema = loaded M.name c.conn.schema spaces indexes ∧
      ∀ {alloc : Nat → Bool}, (∀ n, alloc n = true) →
        ∀ {σ}, @Run _ codeDigest alloc (sessionOn c'.conn.s) σ → @Orderly codeDigest σ ∧
          ∃ σ', @Run _ codeDigest alloc σ σ' ∧ σ'.calls = σ.calls ∧ σ'.client.s.wrcnt = 0 ∧
            σ'.requests = σ.calls.map (@Call.package codeDigest) ∧
            ∀ k < σ.calls.length, finalsOf k σ'.client.read = 1 := by
  obtain ⟨c', out, w₁, w₂, hconnect, hquiet, -, hzero, hrest, hloaded, -⟩ :=
    connect_accepted hM ho hpass hmin hroom hcode hnone hs hi hcome hreplies
  refine ⟨c', hconnect, hloaded, fun halloc σ hrun => ?_⟩
  have h := @Run.inv codeDigest _ _ halloc _ _ (sessionOn_start hquiet hzero hrest) hrun
  exact ⟨@Inv.orderly codeDigest _ _ _ h, @Inv.rests _ codeDigest _ _ _ h halloc⟩

/-- A login that succeeds, and the session behind it. -/
theorem connect_serves_sevens :
    ∃ c', @tntConnect Msgpuck.reference codeDigest demoMemory
        (.ok, demoOpened (demoAccepts.bytes ++ (testIndexes.bytes ++ (testSpaces.bytes ++ []))))
        (demoClient [] [0x75]) = some (0, c') ∧
      @Orderly codeDigest (sessionOn c'.conn.s) := by
  have hnone : ¬ demoAccepts.HasError := by
    rintro ⟨m, hm, -⟩
    cases hm
  obtain ⟨c', hconnect, -, hserves⟩ :=
    @connect_serves Msgpuck.reference _ demoMemory_lasts _ _ _ _ _ _ _
      (@demo_opening [] [0x75] (by decide) (by decide) _) (by decide) (.inl rfl) (.inl rfl)
      demoAccepts testSpaces testIndexes rfl hnone _ _ testSpaces_answers testIndexes_answers
      _ rfl (.inr rfl)
  have halloc : ∀ n, (fun _ : Nat => true) n = true := fun _ => rfl
  exact ⟨c', hconnect, (hserves halloc .refl).1⟩

end TarantoolC.Session
