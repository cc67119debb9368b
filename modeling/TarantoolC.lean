import TarantoolC.MsgPack.Format
import TarantoolC.MsgPack.Encode
import TarantoolC.MsgPack.Decode
import TarantoolC.Msgpuck
import TarantoolC.Buf
import TarantoolC.Object.Builder
import TarantoolC.Object.Model
import TarantoolC.Object.Correct
import TarantoolC.Object.Replay
import TarantoolC.Proto
import TarantoolC.Request.Direct
import TarantoolC.Request.Builder
import TarantoolC.Request.Agree
import TarantoolC.Cursor
import TarantoolC.Reply
import TarantoolC.Io.Stream
import TarantoolC.Io.Recv
import TarantoolC.Io.Send
import TarantoolC.Io.Connect
import TarantoolC.Net
import TarantoolC.Accounting
import TarantoolC.Schema.Load
import TarantoolC.Schema.Answers
import TarantoolC.Schema.Reload
import TarantoolC.Reply.Copy
import TarantoolC.Buf.Fifo
import TarantoolC.Buf.Replies
import TarantoolC.Object.Fixed
import TarantoolC.Tp.Writer
import TarantoolC.Tp.Frames
import TarantoolC.Tp.Agree
import TarantoolC.Tp.Reply
import TarantoolC.Reply.Length
import TarantoolC.Reply.Keys
import TarantoolC.Object.Calls
import TarantoolC.Object.Nest
import TarantoolC.Object.Nesting
import TarantoolC.Object.Simple
import TarantoolC.Object.Failure
import TarantoolC.Object.Scan
import TarantoolC.Object.Grammar
import TarantoolC.Object.Reject
import TarantoolC.Object.Layout
import TarantoolC.Request.Format
import TarantoolC.Object.Overwrite
import TarantoolC.Request.Keep
import TarantoolC.Request.Carry
import TarantoolC.Net.Failure
import TarantoolC.Reply.Feed
import TarantoolC.Request.Sync
import TarantoolC.Object.Verify
import TarantoolC.Request.Scramble
import TarantoolC.Iter
import TarantoolC.Update
import TarantoolC.Schema.Within
import TarantoolC.Probing
import TarantoolC.Mhash
import TarantoolC.Schema.Flush
import TarantoolC.Io.Descriptors
import TarantoolC.Tp.Room
import TarantoolC.Tp.Sizes
import TarantoolC.Tp.Partial
import TarantoolC.Tp.Tuples
import TarantoolC.Blocks
import TarantoolC.Sha1.Standard
import TarantoolC.Sha1.Code
import TarantoolC.Sha1.Stream
import TarantoolC.PMurHash
import TarantoolC.Regroup
import TarantoolC.Base64
import TarantoolC.Request.Challenge
import TarantoolC.Probing.Entries
import TarantoolC.Mhash.Map
import TarantoolC.Schema.Refine
import TarantoolC.Schema.Live
import TarantoolC.Framing
import TarantoolC.Session
import TarantoolC.Session.Settle
import TarantoolC.Login
import TarantoolC.Login.Endpoint
import TarantoolC.Session.Connected
import TarantoolC.Tp.Pairs
