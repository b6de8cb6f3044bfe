/-
  BuilderShim.lean --- a model of the container builder shim and its properties.
-/
import BuilderShim.Foundation.Bytes
import BuilderShim.Foundation.Chan
import BuilderShim.Foundation.Machine
import BuilderShim.Foundation.Prog
import BuilderShim.Foundation.Rely
import BuilderShim.Foundation.Ending
import BuilderShim.Foundation.InsertionSort
import BuilderShim.Foundation.Lift
import BuilderShim.Foundation.Loops
import BuilderShim.Foundation.Merge
import BuilderShim.Foundation.Pool
import BuilderShim.Foundation.Preorder
import BuilderShim.Foundation.Router
import BuilderShim.Foundation.Service
import BuilderShim.Foundation.Tasks
import BuilderShim.Foundation.Total
import BuilderShim.Foundation.Trace
import BuilderShim.GoLib.Csv
import BuilderShim.GoLib.Filepath
import BuilderShim.GoLib.Maps
import BuilderShim.Posix.FileSystem
import BuilderShim.Posix.Resolve
import BuilderShim.Posix.Tree
import BuilderShim.Posix.Syscall
import BuilderShim.GoLib.Os
import BuilderShim.Posix.Region
import BuilderShim.Posix.RegionOps
import BuilderShim.GoLib.OsSpec
import BuilderShim.GoLib.RemoveAll
import BuilderShim.GoLib.Sort
import BuilderShim.GoLib.Strconv
import BuilderShim.GoLib.Strings
import BuilderShim.Posix.Answered
import BuilderShim.Posix.Concrete
import BuilderShim.Posix.Observe
import BuilderShim.Posix.Simulate
import BuilderShim.Posix.Snapshot
import BuilderShim.Fileutils.Unpack
import BuilderShim.Fileutils.Cache
import BuilderShim.Fileutils.Receive
import BuilderShim.Stream.Packet
import BuilderShim.Fileutils.TarStream
import BuilderShim.Fileutils.Abandoned
import BuilderShim.Fileutils.Extract
import BuilderShim.Fileutils.Names
import BuilderShim.Fileutils.CacheState
import BuilderShim.Fileutils.UnpackSpec
import BuilderShim.Fileutils.CacheFrame
import BuilderShim.Fileutils.CacheRely
import BuilderShim.Fileutils.CacheOps
import BuilderShim.Fileutils.CacheCheck
import BuilderShim.Fileutils.TarFile
import BuilderShim.Fileutils.Contain
import BuilderShim.Fileutils.Reserved
import BuilderShim.Fileutils.Publish
import BuilderShim.Fileutils.ReceiveSpec
import BuilderShim.Fileutils.CacheSafety
import BuilderShim.Fileutils.Delivery
import BuilderShim.Fileutils.Phases
import BuilderShim.Fileutils.Layout
import BuilderShim.Fileutils.UnpackExact
import BuilderShim.Fileutils.WalkOrder
import BuilderShim.Fileutils.ReceiveTotal
import BuilderShim.Fileutils.Chunking
import BuilderShim.Fileutils.Digests
import BuilderShim.Stream.Pipeline
import BuilderShim.Stream.Routing
import BuilderShim.Stream.Request
import BuilderShim.Stream.Answers
import BuilderShim.Stream.Shutdown
import BuilderShim.Fssync.Sender
import BuilderShim.Fssync.Backlog
import BuilderShim.Fssync.Align
import BuilderShim.Fssync.Synthetic
import BuilderShim.Fssync.Boundary
import BuilderShim.Fssync.Interleave
import BuilderShim.Fssync.Announce
import BuilderShim.Fssync.File
import BuilderShim.Fssync.Backings
import BuilderShim.Fssync.Serve
import BuilderShim.Fssync.Completion
import BuilderShim.Fsutil.PatternMatcher
import BuilderShim.Fssync.Exclude
import BuilderShim.Fssync.FollowPaths
import BuilderShim.Fssync.Integrity
import BuilderShim.Fsutil.Validator
import BuilderShim.Fssync.Merge
import BuilderShim.Fssync.Sequential
import BuilderShim.Prefetch.Cache
import BuilderShim.Prefetch.Prefetcher
import BuilderShim.Prefetch.Arith
import BuilderShim.Prefetch.Outcome
import BuilderShim.Prefetch.Solo
import BuilderShim.Prefetch.Exact
import BuilderShim.Prefetch.Result
import BuilderShim.Prefetch.ReadAt
import BuilderShim.Prefetch.Range
import BuilderShim.Prefetch.Bounds
import BuilderShim.Prefetch.Overlaps
import BuilderShim.Prefetch.Eviction
import BuilderShim.Prefetch.Progress
import BuilderShim.Prefetch.Lifecycle
import BuilderShim.Prefetch.Rebuild
import BuilderShim.Prefetch.ShortReads
import BuilderShim.Content.Info
import BuilderShim.Content.Walk
import BuilderShim.Build.AddedGlobs
import BuilderShim.Build.Exports
import BuilderShim.Build.Frontend
import BuilderShim.Build.MetaArgs
import BuilderShim.Build.Overlay
import BuilderShim.Build.Platforms
import BuilderShim.Build.Ssh
import BuilderShim.Build.States
import BuilderShim.Stdio.Write
