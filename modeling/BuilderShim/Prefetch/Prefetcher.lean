/-
  Prefetch/Prefetcher.lean --- the prefetcher (pkg/prefetch/prefetch.go).

  A prefetcher serves any number of concurrent `ReadAt` calls.  Each call starts
  goroutines for the chunks it needs and for those it may need next, and copies
  its answer from chunks that it takes from the cache or fetches itself; fetches of
  one chunk are merged by a `singleflight.Group`.

  A goroutine is a `Task`: its arguments and the point it has reached.  A point
  stands in front of the next access to shared data (the cache under its mutex, the
  semaphore, the group, the lifecycle lock, the underlying reader); what the code
  computes in between belongs to the step.  The code's `int64` and `int` are
  `Int64`, with its wrapping arithmetic and truncating division.
-/
import BuilderShim.Foundation.Tasks
import BuilderShim.Prefetch.Cache

set_option autoImplicit false

namespace BuilderShim.Prefetch

open BuilderShim.Foundation

/-- The errors of the prefetcher, of its context and of the reader below it. -/
inductive Err where
  /-- `ErrOffsetOutOfRange` -/
  | offsetOutOfRange
  /-- `ErrReadFailed` -/
  | readFailed
  /-- `ErrPrefetcherClosed` -/
  | prefetcherClosed
  /-- `io.EOF` -/
  | eof
  /-- `context.Canceled` -/
  | canceled
  /-- any other error of the underlying reader -/
  | reader (code : Nat)
  deriving DecidableEq, Repr

/-! ## Configuration -/

structure Config where
  windowSize : Int64
  chunkSize : Int64
  maxParallelReads : Int64
  readTimeout : Int64
  retryInterval : Int64
  maxRetries : Int64
  deriving DecidableEq, Repr

/-- `DefaultConfig`; durations are in nanoseconds. -/
def defaultConfig : Config where
  windowSize := 1048576
  chunkSize := 65536
  maxParallelReads := 4
  readTimeout := Int64.maxValue
  retryInterval := 500000000
  maxRetries := 3

/-- A value that is not positive is replaced by the default. -/
def positiveOr (default value : Int64) : Int64 := if value ≤ 0 then default else value

/-- What `New` makes of the configuration it is given. -/
def Config.normalized (config : Config) : Config :=
  let chunkSize := positiveOr defaultConfig.chunkSize config.chunkSize
  let windowSize := positiveOr defaultConfig.windowSize config.windowSize
  { windowSize := if windowSize < chunkSize then chunkSize else windowSize
    chunkSize := chunkSize
    maxParallelReads := positiveOr defaultConfig.maxParallelReads config.maxParallelReads
    readTimeout := positiveOr defaultConfig.readTimeout config.readTimeout
    retryInterval := positiveOr defaultConfig.retryInterval config.retryInterval
    maxRetries := if config.maxRetries < 0 then defaultConfig.maxRetries else config.maxRetries }

theorem positiveOr_pos {default value : Int64} (h : 0 < default) :
    0 < positiveOr default value := by
  unfold positiveOr
  split
  · exact h
  · rename_i hv
    exact Int64.not_le.mp hv

/-- The part of `prefetcher` that does not change. -/
structure Prefetcher where
  size : Int64
  config : Config
  chunkSize_pos : 0 < config.chunkSize
  parallel_pos : 0 < config.maxParallelReads

/-- `New`, with a reader that is not nil. -/
def Prefetcher.new (size : Int64) (configs : List Config) : Prefetcher where
  size := size
  config := (configs.headD defaultConfig).normalized
  chunkSize_pos := positiveOr_pos (by decide)
  parallel_pos := positiveOr_pos (by decide)

/-- The arguments of a `ReadAt` call: the length of its buffer and the offset. -/
structure Read where
  len : Nat
  off : Int64
  len_lt : len < 2 ^ 63

namespace Prefetcher

variable (p : Prefetcher)

/-! ## What the code computes locally -/

def validateRead (rd : Read) : Option Err :=
  if rd.off < 0 then some .offsetOutOfRange
  else if rd.len = 0 then none
  else if p.size = 0 ∧ rd.len > 0 then some .eof
  else if p.size > 0 ∧ rd.off ≥ p.size then some .offsetOutOfRange
  else none

/-- `startChunkIdx` -/
def startChunk (rd : Read) : Int64 := rd.off / p.config.chunkSize

/-- `endChunkIdx` -/
def endChunk (rd : Read) : Int64 := (rd.off + Int64.ofNat rd.len - 1) / p.config.chunkSize

/-- The read runs past the declared size within one chunk; `ReadAt` then gives up. -/
def endsInChunk (rd : Read) : Bool :=
  p.size > 0 && rd.off + Int64.ofNat rd.len > p.size && p.startChunk rd = p.endChunk rd

def windowEndChunk (startChunk : Int64) : Int64 :=
  let windowChunks :=
    (p.config.windowSize + p.config.chunkSize - 1) / p.config.chunkSize
  let windowEnd := startChunk + (if windowChunks < 1 then 1 else windowChunks) - 1
  if p.size > 0 then
    let maxChunk := (p.size - 1) / p.config.chunkSize
    if windowEnd > maxChunk then maxChunk else windowEnd
  else windowEnd

/-- How many chunks one call schedules for reading ahead. -/
def readAheadLimit : Int64 :=
  let limit := p.config.windowSize / p.config.chunkSize
  if limit > 1000 then 1000 else limit

/-- The end of the file is reported by the size that was declared. -/
def finalErr (rd : Read) (got : Bytes) : Option Err :=
  if p.size > 0 ∧ rd.off + Int64.ofNat got.length ≥ p.size then some .eof else none

/-- `chunkOffset` of `copyChunks` -/
def chunkOffset (rd : Read) (index : Int64) : Nat :=
  if index = p.startChunk rd then (rd.off % p.config.chunkSize).toInt.toNat else 0

/-- One round of `copyChunks`, with the bytes of the chunk: what the buffer holds then,
unless the loop ends because the chunk has nothing more. -/
def copyChunk (rd : Read) (index : Int64) (got data : Bytes) : Option Bytes :=
  let chunkOffset := p.chunkOffset rd index
  if data.length ≤ chunkOffset then none
  else
    let count := min (data.length - chunkOffset) (rd.len - got.length)
    some (got ++ (data.drop chunkOffset).take count)

end Prefetcher

/-- What `reader.ReadAt` returns: the bytes, and the error. -/
structure Answer where
  data : Bytes
  err : Option Err
  deriving DecidableEq, Repr

/-- The code takes what was read when the error is nil or `io.EOF`. -/
def Answer.ok (a : Answer) : Bool := a.err = none || a.err = some .eof

/-! ## Goroutines -/

/-- `fetchChunk`; `c` is the `singleflight` call it takes part in. -/
inductive Fetch where
  /-- `p.group.Do` -/
  | start
  /-- a duplicate, at `c.wg.Wait()` -/
  | waiting (c : Nat)
  /-- `p.cache.getChunk` in the function that is called once -/
  | lookup (c : Nat)
  /-- the `select` over the context, the semaphore and the timeout -/
  | acquire (c : Nat)
  /-- `readChunkOnce`: the result is what the goroutine reading has sent, if it has -/
  | read (c : Nat) (attempt : Int64) (result : Option Answer)
  /-- `waitForRetry` -/
  | retry (c : Nat) (attempt : Int64)
  /-- `p.cache.addChunk` -/
  | add (c : Nat) (ch : Chunk)
  /-- the deferred `<-p.semaphore` -/
  | release (c : Nat) (r : Except Err Chunk)
  /-- the deferred end of `doCall` -/
  | finish (c : Nat) (r : Except Err Chunk)
  | returned (r : Except Err Chunk)

/-- `ReadAt` -/
inductive Reading where
  /-- `beginOperation` -/
  | begin
  /-- `p.cache.evictBefore` -/
  | evict
  /-- the loop of `scheduleRequiredChunks`, at `hasChunk` -/
  | required (index : Int64)
  /-- the same, at `beginOperation` -/
  | register (index : Int64)
  /-- the loop of `scheduleReadAhead`, at `hasChunk` -/
  | ahead (index scheduled : Int64)
  /-- the same, at `beginOperation` -/
  | registerAhead (index scheduled : Int64)
  /-- the loop of `copyChunks`, at `getChunk` -/
  | copy (index : Int64) (got : Bytes)
  /-- the same, in `fetchChunk` -/
  | fetch (index : Int64) (got : Bytes) (f : Fetch)
  /-- the deferred `p.wg.Done` -/
  | done (got : Bytes) (err : Option Err)
  | returned (got : Bytes) (err : Option Err)

/-- The goroutine of `scheduleRequiredChunks`. -/
inductive Required where
  /-- `p.ctx.Err()` -/
  | start
  /-- `p.cache.hasChunk` -/
  | look
  | fetch (f : Fetch)
  | done
  | returned

/-- `readAhead` -/
inductive ReadAhead where
  /-- `p.ctx.Err()`, after the sleep -/
  | start
  | look
  | acquire
  /-- `p.reader.ReadAt` -/
  | read
  | add (ch : Chunk)
  | release
  | done
  | returned

/-- `Close` -/
inductive Closing where
  | start
  | wait
  | clear
  | returned

inductive Task where
  | readAt (rd : Read) (r : Reading)
  | required (index : Int64) (r : Required)
  | readAhead (index : Int64) (r : ReadAhead)
  | close (c : Closing)
  /-- the goroutine of `readChunkOnce` that nobody waits for any more, and whether it has
  ended -/
  | orphan (index : Int64) (ended : Bool)

/-- A `singleflight` call.  The group files it under `key` while it runs. -/
structure Flight where
  key : Int64
  result : Option (Except Err Chunk)

/-- What the goroutines share. -/
structure Shared where
  cache : ChunkCache
  /-- tokens taken -/
  semaphore : Nat
  /-- the map of the group -/
  flights : Int64 → Option Nat
  calls : Nat → Flight
  nextCall : Nat
  /-- `closed`, and the cancellation of the context, which is set under the same lock -/
  closed : Bool
  wg : Nat

def Shared.initial : Shared where
  cache := newChunkCache
  semaphore := 0
  flights := fun _ => none
  calls := fun _ => ⟨0, none⟩
  nextCall := 0
  closed := false
  wg := 0

namespace Shared

/-- The group has no call for the key: a new one. -/
def newCall (sh : Shared) (key : Int64) : Shared :=
  { sh with
    flights := Function.update sh.flights key (some sh.nextCall)
    calls := Function.update sh.calls sh.nextCall ⟨key, none⟩
    nextCall := sh.nextCall + 1 }

/-- The call ends: its waiters see the result, and the key is free again. -/
def finishCall (sh : Shared) (key : Int64) (c : Nat) (r : Except Err Chunk) : Shared :=
  { sh with
    flights := Function.update sh.flights key none
    calls := Function.update sh.calls c ⟨key, some r⟩ }

end Shared

/-- What the environment decides. -/
inductive Event where
  /-- nothing -/
  | tau
  /-- the underlying reader answers a read of the chunk -/
  | answer (index : Int64) (a : Answer)
  /-- a `ReadTimeout` expires -/
  | expire

namespace Prefetcher

variable (p : Prefetcher)

/-- `readChunkWithRetries` after a failed attempt.  Whatever the error was, the function
that fetches turns it into `ErrReadFailed`. -/
def afterAttempt (c : Nat) (attempt : Int64) : Fetch :=
  if attempt + 1 ≤ p.config.maxRetries then .retry c (attempt + 1)
  else .release c (.error .readFailed)

/-- A read that is given up while the reader is still at it goes on alone. -/
def orphans (index : Int64) : Option Answer → List Task
  | none => [.orphan index false]
  | some _ => []

/-- The tokens of the semaphore. -/
def tokens : Nat := p.config.maxParallelReads.toInt.toNat

/-- `fetchChunk`, with `readChunkWithRetries` and `readChunkOnce` -/
inductive FetchStep (index : Int64) :
    Shared → Fetch → Event → Shared → Fetch → List Task → Prop
  | lead {sh : Shared} (h : sh.flights index = none) :
      FetchStep index sh .start .tau (sh.newCall index) (.lookup sh.nextCall) []
  | join {sh : Shared} {c : Nat} (h : sh.flights index = some c) :
      FetchStep index sh .start .tau sh (.waiting c) []
  | woken {sh : Shared} {c : Nat} {r : Except Err Chunk} (h : (sh.calls c).result = some r) :
      FetchStep index sh (.waiting c) .tau sh (.returned r) []
  | hit {sh : Shared} {c now : Nat} {ch : Chunk}
      (h : (sh.cache.getChunk index now).1 = some ch) :
      FetchStep index sh (.lookup c) .tau
        { sh with cache := (sh.cache.getChunk index now).2 } (.finish c (.ok ch)) []
  | miss {sh : Shared} {c : Nat} (h : sh.cache.hasChunk index = false) :
      FetchStep index sh (.lookup c) .tau sh (.acquire c) []
  | acquire {sh : Shared} {c : Nat} (h : sh.semaphore < p.tokens) :
      FetchStep index sh (.acquire c) .tau { sh with semaphore := sh.semaphore + 1 }
        (.read c 0 none) []
  | acquireCancelled {sh : Shared} {c : Nat} (h : sh.closed = true) :
      FetchStep index sh (.acquire c) .tau sh (.finish c (.error .canceled)) []
  | acquireExpired {sh : Shared} {c : Nat} :
      FetchStep index sh (.acquire c) .expire sh (.finish c (.error .readFailed)) []
  | answer {sh : Shared} {c : Nat} {attempt : Int64} {a : Answer} :
      FetchStep index sh (.read c attempt none) (.answer index a) sh
        (.read c attempt (some a)) []
  | readOk {sh : Shared} {c : Nat} {attempt : Int64} {a : Answer} (h : a.ok = true) :
      FetchStep index sh (.read c attempt (some a)) .tau sh (.add c ⟨index, a.data, 0⟩) []
  | readFailed {sh : Shared} {c : Nat} {attempt : Int64} {a : Answer} (h : a.ok = false) :
      FetchStep index sh (.read c attempt (some a)) .tau sh (p.afterAttempt c attempt) []
  | readExpired {sh : Shared} {c : Nat} {attempt : Int64} {result : Option Answer} :
      FetchStep index sh (.read c attempt result) .expire sh (p.afterAttempt c attempt)
        (orphans index result)
  | readCancelled {sh : Shared} {c : Nat} {attempt : Int64} {result : Option Answer}
      (h : sh.closed = true) :
      FetchStep index sh (.read c attempt result) .tau sh (p.afterAttempt c attempt)
        (orphans index result)
  | retry {sh : Shared} {c : Nat} {attempt : Int64} :
      FetchStep index sh (.retry c attempt) .tau sh (.read c attempt none) []
  | retryCancelled {sh : Shared} {c : Nat} {attempt : Int64} (h : sh.closed = true) :
      FetchStep index sh (.retry c attempt) .tau sh (.release c (.error .readFailed)) []
  | add {sh : Shared} {c : Nat} {ch : Chunk} (order : MapOrder) (now : Nat) :
      FetchStep index sh (.add c ch) .tau
        { sh with cache := sh.cache.addChunk order now ch } (.release c (.ok ch)) []
  | release {sh : Shared} {c : Nat} {r : Except Err Chunk} :
      FetchStep index sh (.release c r) .tau { sh with semaphore := sh.semaphore - 1 }
        (.finish c r) []
  | finish {sh : Shared} {c : Nat} {r : Except Err Chunk} :
      FetchStep index sh (.finish c r) .tau (sh.finishCall index c r) (.returned r) []

/-- `ReadAt` between `beginOperation` and the eviction. -/
def enter (rd : Read) : Reading :=
  match p.validateRead rd with
  | some e => .done [] (some e)
  | none => if rd.len = 0 then .done [] none else .evict

/-- `copyChunks` with the bytes of the chunk at `index`. -/
def copyFrom (rd : Read) (index : Int64) (got data : Bytes) : Reading :=
  match p.copyChunk rd index got data with
  | none => .done got (p.finalErr rd got)
  | some got => .copy (index + 1) got

/-- `ReadAt`, with `scheduleRequiredChunks`, `scheduleReadAhead`, `copyChunks` and
`getChunk` -/
inductive ReadStep (rd : Read) :
    Shared → Reading → Event → Shared → Reading → List Task → Prop
  | refused {sh : Shared} (h : sh.closed = true) :
      ReadStep rd sh .begin .tau sh (.returned [] (some .prefetcherClosed)) []
  | begin {sh : Shared} (h : sh.closed = false) :
      ReadStep rd sh .begin .tau { sh with wg := sh.wg + 1 } (p.enter rd) []
  | evict {sh : Shared} :
      ReadStep rd sh .evict .tau { sh with cache := sh.cache.evictBefore (p.startChunk rd) }
        (if p.endsInChunk rd then .done [] (some .eof) else .required (p.startChunk rd)) []
  | requiredHit {sh : Shared} {index : Int64} (hi : index ≤ p.endChunk rd)
      (h : sh.cache.hasChunk index = true) :
      ReadStep rd sh (.required index) .tau sh (.required (index + 1)) []
  | requiredMiss {sh : Shared} {index : Int64} (hi : index ≤ p.endChunk rd)
      (h : sh.cache.hasChunk index = false) :
      ReadStep rd sh (.required index) .tau sh (.register index) []
  | requiredEnd {sh : Shared} {index : Int64} (hi : ¬ index ≤ p.endChunk rd) :
      ReadStep rd sh (.required index) .tau sh (.ahead (p.endChunk rd + 1) 0) []
  | register {sh : Shared} {index : Int64} (h : sh.closed = false) :
      ReadStep rd sh (.register index) .tau { sh with wg := sh.wg + 1 }
        (.required (index + 1)) [.required index .start]
  | registerClosed {sh : Shared} {index : Int64} (h : sh.closed = true) :
      ReadStep rd sh (.register index) .tau sh (.required (index + 1)) []
  | aheadHit {sh : Shared} {index scheduled : Int64}
      (hi : index ≤ p.windowEndChunk (p.startChunk rd)) (hs : scheduled < p.readAheadLimit)
      (h : sh.cache.hasChunk index = true) :
      ReadStep rd sh (.ahead index scheduled) .tau sh (.ahead (index + 1) scheduled) []
  | aheadMiss {sh : Shared} {index scheduled : Int64}
      (hi : index ≤ p.windowEndChunk (p.startChunk rd)) (hs : scheduled < p.readAheadLimit)
      (h : sh.cache.hasChunk index = false) :
      ReadStep rd sh (.ahead index scheduled) .tau sh (.registerAhead index scheduled) []
  | aheadEnd {sh : Shared} {index scheduled : Int64}
      (h : ¬ (index ≤ p.windowEndChunk (p.startChunk rd) ∧ scheduled < p.readAheadLimit)) :
      ReadStep rd sh (.ahead index scheduled) .tau sh (.copy (p.startChunk rd) []) []
  | registerAhead {sh : Shared} {index scheduled : Int64} (h : sh.closed = false) :
      ReadStep rd sh (.registerAhead index scheduled) .tau { sh with wg := sh.wg + 1 }
        (.ahead (index + 1) (scheduled + 1)) [.readAhead index .start]
  | registerAheadClosed {sh : Shared} {index scheduled : Int64} (h : sh.closed = true) :
      ReadStep rd sh (.registerAhead index scheduled) .tau sh (.ahead (index + 1) scheduled) []
  | copyHit {sh : Shared} {index : Int64} {got : Bytes} {now : Nat} {ch : Chunk}
      (hi : index ≤ p.endChunk rd) (hlen : got.length < rd.len)
      (h : (sh.cache.getChunk index now).1 = some ch) :
      ReadStep rd sh (.copy index got) .tau
        { sh with cache := (sh.cache.getChunk index now).2 } (p.copyFrom rd index got ch.data) []
  | copyMiss {sh : Shared} {index : Int64} {got : Bytes}
      (hi : index ≤ p.endChunk rd) (hlen : got.length < rd.len)
      (h : sh.cache.hasChunk index = false) :
      ReadStep rd sh (.copy index got) .tau sh (.fetch index got .start) []
  | copyEnd {sh : Shared} {index : Int64} {got : Bytes}
      (h : ¬ (index ≤ p.endChunk rd ∧ got.length < rd.len)) :
      ReadStep rd sh (.copy index got) .tau sh (.done got (p.finalErr rd got)) []
  | fetch {sh sh' : Shared} {index : Int64} {got : Bytes} {f f' : Fetch} {e : Event}
      {new : List Task} (h : p.FetchStep index sh f e sh' f' new) :
      ReadStep rd sh (.fetch index got f) e sh' (.fetch index got f') new
  | fetched {sh : Shared} {index : Int64} {got : Bytes} {ch : Chunk} :
      ReadStep rd sh (.fetch index got (.returned (.ok ch))) .tau sh
        (p.copyFrom rd index got ch.data) []
  | fetchFailed {sh : Shared} {index : Int64} {got : Bytes} {e : Err} :
      ReadStep rd sh (.fetch index got (.returned (.error e))) .tau sh (.done got (some e)) []
  | done {sh : Shared} {got : Bytes} {err : Option Err} :
      ReadStep rd sh (.done got err) .tau { sh with wg := sh.wg - 1 } (.returned got err) []

/-- The goroutine of `scheduleRequiredChunks`; its result is not used. -/
inductive RequiredStep (index : Int64) :
    Shared → Required → Event → Shared → Required → List Task → Prop
  | start {sh : Shared} (h : sh.closed = false) : RequiredStep index sh .start .tau sh .look []
  | closed {sh : Shared} (h : sh.closed = true) : RequiredStep index sh .start .tau sh .done []
  | hit {sh : Shared} (h : sh.cache.hasChunk index = true) :
      RequiredStep index sh .look .tau sh .done []
  | miss {sh : Shared} (h : sh.cache.hasChunk index = false) :
      RequiredStep index sh .look .tau sh (.fetch .start) []
  | fetch {sh sh' : Shared} {f f' : Fetch} {e : Event} {new : List Task}
      (h : p.FetchStep index sh f e sh' f' new) :
      RequiredStep index sh (.fetch f) e sh' (.fetch f') new
  | fetched {sh : Shared} {r : Except Err Chunk} :
      RequiredStep index sh (.fetch (.returned r)) .tau sh .done []
  | done {sh : Shared} :
      RequiredStep index sh .done .tau { sh with wg := sh.wg - 1 } .returned []

/-- `readAhead` -/
inductive ReadAheadStep (index : Int64) :
    Shared → ReadAhead → Event → Shared → ReadAhead → Prop
  | start {sh : Shared} (h : sh.closed = false) : ReadAheadStep index sh .start .tau sh .look
  | closed {sh : Shared} (h : sh.closed = true) : ReadAheadStep index sh .start .tau sh .done
  | hit {sh : Shared} (h : sh.cache.hasChunk index = true) :
      ReadAheadStep index sh .look .tau sh .done
  | miss {sh : Shared} (h : sh.cache.hasChunk index = false) :
      ReadAheadStep index sh .look .tau sh .acquire
  | acquire {sh : Shared} (h : sh.semaphore < p.tokens) :
      ReadAheadStep index sh .acquire .tau { sh with semaphore := sh.semaphore + 1 } .read
  | busy {sh : Shared} (h : ¬ sh.semaphore < p.tokens) :
      ReadAheadStep index sh .acquire .tau sh .done
  | readOk {sh : Shared} {a : Answer} (h : a.ok = true) :
      ReadAheadStep index sh .read (.answer index a) sh (.add ⟨index, a.data, 0⟩)
  | readFailed {sh : Shared} {a : Answer} (h : a.ok = false) :
      ReadAheadStep index sh .read (.answer index a) sh .release
  | add {sh : Shared} {ch : Chunk} (order : MapOrder) (now : Nat) :
      ReadAheadStep index sh (.add ch) .tau
        { sh with cache := sh.cache.addChunk order now ch } .release
  | release {sh : Shared} :
      ReadAheadStep index sh .release .tau { sh with semaphore := sh.semaphore - 1 } .done
  | done {sh : Shared} :
      ReadAheadStep index sh .done .tau { sh with wg := sh.wg - 1 } .returned

end Prefetcher

/-- `Close` -/
inductive CloseStep : Shared → Closing → Event → Shared → Closing → Prop
  | start {sh : Shared} (h : sh.closed = false) :
      CloseStep sh .start .tau { sh with closed := true } .wait
  | again {sh : Shared} (h : sh.closed = true) : CloseStep sh .start .tau sh .returned
  | wait {sh : Shared} (h : sh.wg = 0) : CloseStep sh .wait .tau sh .clear
  | clear {sh : Shared} :
      CloseStep sh .clear .tau { sh with cache := sh.cache.clear } .returned

/-- One step of one goroutine. -/
inductive Prefetcher.LocalStep (p : Prefetcher) : LocalStep Shared Task Event
  | readAt {sh sh' : Shared} {rd : Read} {r r' : Reading} {e : Event} {new : List Task}
      (h : p.ReadStep rd sh r e sh' r' new) :
      LocalStep p sh (.readAt rd r) e sh' (.readAt rd r') new
  | required {sh sh' : Shared} {index : Int64} {r r' : Required} {e : Event} {new : List Task}
      (h : p.RequiredStep index sh r e sh' r' new) :
      LocalStep p sh (.required index r) e sh' (.required index r') new
  | readAhead {sh sh' : Shared} {index : Int64} {r r' : ReadAhead} {e : Event}
      (h : p.ReadAheadStep index sh r e sh' r') :
      LocalStep p sh (.readAhead index r) e sh' (.readAhead index r') []
  | close {sh sh' : Shared} {c c' : Closing} {e : Event} (h : CloseStep sh c e sh' c') :
      LocalStep p sh (.close c) e sh' (.close c') []
  | orphan {sh : Shared} {index : Int64} {a : Answer} :
      LocalStep p sh (.orphan index false) (.answer index a) sh (.orphan index true) []

/-- One step of the prefetcher. -/
abbrev Prefetcher.Step (p : Prefetcher) : Tasks Shared Task → Event → Tasks Shared Task → Prop :=
  TaskStep p.LocalStep

/-- A call that is made to the prefetcher. -/
inductive Call where
  | readAt (rd : Read)
  | close

def Call.task : Call → Task
  | .readAt rd => .readAt rd .begin
  | .close => .close .start

/-- The new prefetcher, with all calls that will ever be made to it still to start. -/
def start (calls : List Call) : Tasks Shared Task := ⟨Shared.initial, calls.map Call.task⟩

end BuilderShim.Prefetch
