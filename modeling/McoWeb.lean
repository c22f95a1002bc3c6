import McoWeb.Foundation.Board
import McoWeb.Storage.Find
import McoWeb.Storage.FindLaws
import McoWeb.Storage.NullSafety
import McoWeb.Storage.Frame
import McoWeb.Storage.Ownership
import McoWeb.Storage.FindRun
import McoWeb.Cache.Zval
import McoWeb.Cache.Entry
import McoWeb.Cache.World
import McoWeb.Cache.Address
import McoWeb.Cache.AddImpl
import McoWeb.Cache.DeleteImpl
import McoWeb.Cache.Methods
import McoWeb.Cache.StoreArguments
import McoWeb.Cache.RoundTrip
import McoWeb.Cache.StorageKey
import McoWeb.Cache.MultiStore
import McoWeb.Cache.MethodLaws
import McoWeb.Storage.Accounting
import McoWeb.Foundation.Words
import McoWeb.Storage.HashLaws
import McoWeb.Storage.Hits
import McoWeb.Storage.ChecksumLaws
import McoWeb.Foundation.Reads
import McoWeb.Storage.Sampling
import McoWeb.Cache.Threshold
import McoWeb.Storage.Startup
import McoWeb.Cache.DeleteMulti
import McoWeb.Cache.EntryFormat
import McoWeb.Foundation.Checked
import McoWeb.Storage.InputBounds
import McoWeb.Touch.Handlers
import McoWeb.Touch.Highlight
import McoWeb.Touch.Timers
import McoWeb.Foundation.Buffers
import McoWeb.Taint.MarkStrings
import McoWeb.Taint.Marked
import McoWeb.Foundation.LossyMap
import McoWeb.Cache.LossyStore
import McoWeb.Storage.Entries
import McoWeb.Cache.TableStore
import McoWeb.Cache.ArrayCalls
import McoWeb.Cache.Prefixes
import McoWeb.Foundation.Interleave
import McoWeb.Storage.Access
import McoWeb.Storage.Interference
import McoWeb.Storage.Lockless
import McoWeb.Touch.History
import McoWeb.Foundation.Chunked
import McoWeb.Stream.DumpChunk
import McoWeb.Cache.Script
import McoWeb.Cache.ScriptRuns
import McoWeb.Storage.Corruption
import McoWeb.Storage.Traces
import McoWeb.Cache.Lifecycle
import McoWeb.Cache.TableLife
import McoWeb.Cache.ExactStore
import McoWeb.Cache.Placement
