import IcecastCommon.Lib.Memory
import IcecastCommon.Lib.Zipper
import IcecastCommon.Lib.Order
import IcecastCommon.Lib.Run
import IcecastCommon.Lib.Bytes
import IcecastCommon.Lib.Hex
import IcecastCommon.Lib.Strings
import IcecastCommon.Lib.Backlog
import IcecastCommon.Encoding.Code
import IcecastCommon.Encoding.Stream
import IcecastCommon.Encoding.Header
import IcecastCommon.Encoding.Phase
import IcecastCommon.Encoding.Decode
import IcecastCommon.Encoding.Reads
import IcecastCommon.Encoding.Progress
import IcecastCommon.Encoding.Complete
import IcecastCommon.Encoding.Bounds
import IcecastCommon.Encoding.Extensions
import IcecastCommon.Encoding.Write
import IcecastCommon.Encoding.Quotes
import IcecastCommon.Encoding.Encoder
import IcecastCommon.Encoding.Finish
import IcecastCommon.Avl.Code
import IcecastCommon.Avl.Tree
import IcecastCommon.Avl.Shape
import IcecastCommon.Avl.Word
import IcecastCommon.Avl.Rotate
import IcecastCommon.Avl.Insert
import IcecastCommon.Avl.Delete
import IcecastCommon.Avl.Lookup
import IcecastCommon.Avl.Sequence
import IcecastCommon.Avl.Run
import IcecastCommon.Avl.Links
import IcecastCommon.Httpp.Code
import IcecastCommon.Httpp.Vars
import IcecastCommon.Httpp.Query
import IcecastCommon.Httpp.Form
import IcecastCommon.Httpp.Lines
import IcecastCommon.Httpp.Headers
import IcecastCommon.Httpp.Request
import IcecastCommon.Httpp.Parsed
import IcecastCommon.Httpp.Names
import IcecastCommon.Httpp.Grammar
import IcecastCommon.Avl.Failure
import IcecastCommon.Avl.Iterate
import IcecastCommon.Httpp.Keys
import IcecastCommon.Encoding.Malformed
import IcecastCommon.Lib.Heap
import IcecastCommon.Log.Code
import IcecastCommon.Log.Slots
import IcecastCommon.Log.Effect
import IcecastCommon.Log.Run
import IcecastCommon.Log.Tail
import IcecastCommon.Log.Files
import IcecastCommon.Log.Recent
import IcecastCommon.Thread.Code
import IcecastCommon.Thread.Tree
import IcecastCommon.Thread.Self
import IcecastCommon.Avl.Range
import IcecastCommon.Avl.Span
import IcecastCommon.Avl.Nearest
import IcecastCommon.Avl.Height
import IcecastCommon.Avl.Verify
import IcecastCommon.Encoding.Sizes
import IcecastCommon.Encoding.Counter
import IcecastCommon.Encoding.Zero
import IcecastCommon.Httpp.Unescape
import IcecastCommon.Httpp.Split
import IcecastCommon.Httpp.Params
import IcecastCommon.Httpp.Postdata
import IcecastCommon.Httpp.Response
import IcecastCommon.Log.Format
import IcecastCommon.Encoding.Tokens
import IcecastCommon.Encoding.Queued
import IcecastCommon.Log.Written
import IcecastCommon.Log.Escape
import IcecastCommon.Log.Denote
import IcecastCommon.Log.Cut
import IcecastCommon.Log.Directives
import IcecastCommon.Log.Length
import IcecastCommon.Log.Percent
import IcecastCommon.Log.Sizes
import IcecastCommon.Net.Code
import IcecastCommon.Net.Lines
import IcecastCommon.Net.Sent
import IcecastCommon.Lib.Rounds
import IcecastCommon.Net.Connect
import IcecastCommon.Avl.Paths
import IcecastCommon.Encoding.Confined
import IcecastCommon.Encoding.Stores
import IcecastCommon.Avl.Faithful
import IcecastCommon.Encoding.Listener
import IcecastCommon.Encoding.Relay
import IcecastCommon.Avl.Accounts
import IcecastCommon.Httpp.Changes
import IcecastCommon.Httpp.Lifetime
import IcecastCommon.Log.Apart
import IcecastCommon.Thread.Records
import IcecastCommon.Httpp.Message
import IcecastCommon.Lib.Disk
import IcecastCommon.Log.Archives
import IcecastCommon.Net.Channel
import IcecastCommon.Net.Held
