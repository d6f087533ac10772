import KivaDb.Lib.Utf8
import KivaDb.Lib.Fallible
import KivaDb.Lib.Shadow
import KivaDb.External
import KivaDb.Format
import KivaDb.Compress
import KivaDb.Crypt
import KivaDb.Record
import KivaDb.Log
import KivaDb.Appends
import KivaDb.Pieces
import KivaDb.Recovery
import KivaDb.Agree
import KivaDb.Damage
import KivaDb.Hint
import KivaDb.Num
import KivaDb.Doc
import KivaDb.SKey
import KivaDb.Glob
import KivaDb.Lib.Greedy
import KivaDb.Glob.Language
import KivaDb.Glob.Covers
import KivaDb.SecIndex
import KivaDb.Table
import KivaDb.Engine.Inner
import KivaDb.Engine.Ops
import KivaDb.Engine.Batch
import KivaDb.Engine.Drops
import KivaDb.Engine.Commits
import KivaDb.Engine.Reads
import KivaDb.Engine.Libraries
import KivaDb.Engine.Sealed
import KivaDb.Engine.Sequential
import KivaDb.Engine.Moves
import KivaDb.Engine.Logged
import KivaDb.Engine.Restart
import KivaDb.Failover.Elect
import KivaDb.Failover.Votes
import KivaDb.Failover.Masters
import KivaDb.Changes.Body
import KivaDb.Changes.Journal
import KivaDb.Changes.Tape
import KivaDb.Changes.Writing
import KivaDb.Changes.Paging
import KivaDb.Changes.Cutting
import KivaDb.Changes.Reopen
import KivaDb.Repl.Stream
import KivaDb.Repl.Mirror
import KivaDb.Repl.Acked
import KivaDb.Repl.Spaces
import KivaDb.Repl.Converge
import KivaDb.GroupCommit.Syncs
import KivaDb.GroupCommit.Files
import KivaDb.GroupCommit.OnDisk
import KivaDb.Engine.Maintain
import KivaDb.Txn.Opens
import KivaDb.Engine.Acts
import KivaDb.Txn.Traces
import KivaDb.Txn.Effects
import KivaDb.Txn.Copies
import KivaDb.Txn.Refusals
import KivaDb.Txn.Conflicts
import KivaDb.Engine.Views
import KivaDb.Lib.Program
import KivaDb.Front.Session
import KivaDb.Resp.Reply
import KivaDb.Resp.Commands
import KivaDb.Resp.Values
import KivaDb.Resp.Scan
import KivaDb.Front.Reference
import KivaDb.Resp.Conn
import KivaDb.Engine.Plain
import KivaDb.Front.Watching
import KivaDb.Resp.Watching
import KivaDb.Resp.WatchedScripts
import KivaDb.Front.Idle
import KivaDb.Resp.Calm
import KivaDb.Resp.Watches
import KivaDb.Resp.ChangedKeys
import KivaDb.Resp.Select
import KivaDb.Resp.Scripts
import KivaDb.Front.Direct
import KivaDb.Resp.Collections
import KivaDb.Resp.Moving
import KivaDb.NumClass
import KivaDb.Engine.Books
import KivaDb.Engine.Chunks
import KivaDb.Kdoc.RoundTrip
import KivaDb.Time.Reading
import KivaDb.Extended
import KivaDb.ExtendedBack
import KivaDb.Semantic.Similar
import KivaDb.Semantic.Space
import KivaDb.Engine.Paging
import KivaDb.Visit
import KivaDb.Semantic.Indexed
import KivaDb.Semantic.Exact
import KivaDb.Semantic.Cache
import KivaDb.Semantic.Fresh
import KivaDb.Semantic.Served
import KivaDb.Float
import KivaDb.FromJson
import KivaDb.Edits
import KivaDb.Alike
import KivaDb.Schema.Rules
import KivaDb.Schema.Follows
import KivaDb.Schema.Alike
import KivaDb.Schema.Conform
import KivaDb.Digits
import KivaDb.Nearest
import KivaDb.Query.GroupKey
import KivaDb.Query.Aggregate
import KivaDb.Query.Orders
import KivaDb.Decimals
import KivaDb.Like
import KivaDb.Lib.Commuting
import KivaDb.Time.Pattern
import KivaDb.Time.Layout
import KivaDb.Time.Iso
import KivaDb.Backup.Check
import KivaDb.Config
import KivaDb.Backup.Archive
import KivaDb.Backup.Written
import KivaDb.Backup.Checked
import KivaDb.Backup.Restore
import KivaDb.Backup.Restored
import KivaDb.Backup.GivenBack
import KivaDb.Integers
import KivaDb.Streams.State
import KivaDb.Streams.Commands
import KivaDb.Streams.Claims
import KivaDb.Streams.Held
import KivaDb.Streams.Idle
import KivaDb.Streams.Sweeps
import KivaDb.Streams.Lag
import KivaDb.Schema.Parse
import KivaDb.Rounding
import KivaDb.Schema.Bounds
import KivaDb.Schema.Blame
import KivaDb.Schema.Vetted
import KivaDb.Time.ReadBack
import KivaDb.PubSub.Language
import KivaDb.PubSub.Follows
import KivaDb.Shell.Open
import KivaDb.Shell.Commands
import KivaDb.Front.ReadBack
import KivaDb.Resp.Strings
import KivaDb.Resp.Expiry
import KivaDb.Resp.Deadlines
import KivaDb.Shell.Deadlines
import KivaDb.Resp.Blocking
import KivaDb.Double
import KivaDb.Lib.Framing
import KivaDb.Resp.Wire
import KivaDb.Resp.Framing
import KivaDb.Resp.Requests
import KivaDb.Resp.Sizes
import KivaDb.Query.Expr
import KivaDb.Query.YearRange
import KivaDb.Query.Language
import KivaDb.Lib.Heap
import KivaDb.Query.Stretches
import KivaDb.Query.TopK
import KivaDb.Paths
import KivaDb.Saved
import KivaDb.Stored
import KivaDb.Vector.Sidecar
