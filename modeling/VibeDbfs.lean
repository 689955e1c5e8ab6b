import VibeDbfs.Lib.Bytes
import VibeDbfs.Lib.Chunked
import VibeDbfs.Lib.Prog
import VibeDbfs.Lib.Runs
import VibeDbfs.Lib.Forest
import VibeDbfs.Lib.Keyed
import VibeDbfs.Lib.Cells
import VibeDbfs.Lib.Paging
import VibeDbfs.Storage.Records
import VibeDbfs.Storage.Timestamps
import VibeDbfs.Storage.ChunkSpan
import VibeDbfs.Storage.SpanLaws
import VibeDbfs.Storage.Tables
import VibeDbfs.Storage.Names
import VibeDbfs.Storage.Methods
import VibeDbfs.Storage.RowLaws
import VibeDbfs.Storage.NameMethods
import VibeDbfs.Storage.NameSteps
import VibeDbfs.Storage.Startup
import VibeDbfs.Storage.Chunks
import VibeDbfs.Storage.Data
import VibeDbfs.Storage.DirectWrites
import VibeDbfs.Storage.Sound
import VibeDbfs.Storage.StoreRuns
import VibeDbfs.Open.Arena
import VibeDbfs.Open.ArenaLaws
import VibeDbfs.Open.DirtyLaws
import VibeDbfs.Open.Table
import VibeDbfs.Open.TableLaws
import VibeDbfs.Open.Files
import VibeDbfs.Fuse.File
import VibeDbfs.Fuse.StoredFile
import VibeDbfs.Fuse.Shared
import VibeDbfs.Fuse.Slots
import VibeDbfs.Fuse.World
import VibeDbfs.Fuse.Calls
import VibeDbfs.Fuse.Flushing
import VibeDbfs.Fuse.Resizing
import VibeDbfs.Fuse.Reading
import VibeDbfs.Fuse.Writing
import VibeDbfs.Fuse.Handling
import VibeDbfs.Fuse.Naming
import VibeDbfs.Fuse.Runs
import VibeDbfs.Fuse.Accounting
import VibeDbfs.Fuse.Listing
import VibeDbfs.Fuse.Crashes
import VibeDbfs.Fuse.Failures
import VibeDbfs.Fuse.Lifetimes
import VibeDbfs.Fuse.Replies
import VibeDbfs.Fuse.Reference
import VibeDbfs.Storage.Migrated
import VibeDbfs.Storage.Limits
import VibeDbfs.Storage.MergedTimes
import VibeDbfs.Mount.Options
import VibeDbfs.Storage.ByteArray
import VibeDbfs.Fuse.Eviction
import VibeDbfs.Storage.ExactSpans
import VibeDbfs.Fuse.FileEnd
import VibeDbfs.Open.TidyTable
import VibeDbfs.Fuse.AnyCalls
import VibeDbfs.Fuse.IdleSlots
import VibeDbfs.Storage.StoredTimes
import VibeDbfs.Fuse.Routine
import VibeDbfs.Fuse.SlotOwners
import VibeDbfs.Fuse.Times
import VibeDbfs.Fuse.Attributes
import VibeDbfs.Fuse.Invisible
import VibeDbfs.Fuse.SetAttr
import VibeDbfs.Fuse.AllOrNothing
import VibeDbfs.Fuse.FlushAll
import VibeDbfs.Storage.Renaming
import VibeDbfs.Fuse.KeptLimits
import VibeDbfs.Storage.ChunkArithmetic
import VibeDbfs.Open.ArenaRuns
import VibeDbfs.Open.DirtyMap
import VibeDbfs.Fuse.Flusher
import VibeDbfs.Fuse.Interleaved
import VibeDbfs.Fuse.Sections
import VibeDbfs.Fuse.Outcomes
import VibeDbfs.Fuse.Threads
import VibeDbfs.Fuse.Shutdown
import VibeDbfs.Fuse.Dated
import VibeDbfs.Fuse.ChangeTimes
import VibeDbfs.Fuse.Releases
import VibeDbfs.Lib.NameTree
import VibeDbfs.Lib.Refinement
import VibeDbfs.Storage.FileTree
import VibeDbfs.Storage.TreeRefinement
import VibeDbfs.Fuse.OpenTree
import VibeDbfs.Mount.Process
import VibeDbfs.Fuse.ConcurrentReads
import VibeDbfs.Fuse.DirectCalls
import VibeDbfs.Fuse.Undo
import VibeDbfs.Fuse.Views
import VibeDbfs.Mount.Size
import VibeDbfs.Fuse.Requests
import VibeDbfs.Fuse.Remounts
import VibeDbfs.Storage.Owners
import VibeDbfs.Fuse.Footprint
import VibeDbfs.Fuse.Owners
import VibeDbfs.Fuse.Backing
import VibeDbfs.Fuse.Contents
import VibeDbfs.Fuse.FreshBytes
import VibeDbfs.Fuse.Durability
