/-
  Fssync/Sender.lean --- `sender.run` (pkg/fssync/diffcopy.go): the walk, the
  receive loop and the 64 workers.

  The walk announces entries, and notes the path of each regular file under the
  entry's number; the receive loop takes requests for these numbers and hands them
  to the workers through a channel; the workers send the files.  Each of them is a
  task that stands in front of its next access to something shared, and each may
  fail where the code can.

  `announced`, `accepted` and `received` are a history that no step reads.
-/
import Mathlib.Data.List.AList
import BuilderShim.Fileutils.Unpack
import BuilderShim.Foundation.Chan
import BuilderShim.Foundation.Tasks

set_option autoImplicit false

namespace BuilderShim.Fssync

open BuilderShim.Foundation

/-- `types.Stat`, as far as the sender looks at it. -/
structure Stat where
  path : Bytes
  mode : UInt32
  deriving DecidableEq

/-- `os.ModeType` -/
def modeType : UInt32 := 0x8f280000

def fileCanRequestData (m : UInt32) : Bool := m &&& modeType == 0

/-- The packets the sender sends. -/
inductive Packet where
  /-- `PACKET_STAT`; the last one has no stat -/
  | stat (st : Option Stat)
  /-- `PACKET_DATA` -/
  | data (id : UInt32) (bytes : Bytes)
  /-- `PACKET_FIN` -/
  | fin
  /-- `PACKET_ERR` -/
  | err

/-- The packets it receives. -/
inductive Incoming where
  | req (id : UInt32)
  | fin
  | err
  /-- any other type -/
  | other
  deriving DecidableEq

structure SendHandle where
  id : UInt32
  path : Bytes

/-- `FSSyncProxy`, the part `sendFile` reads. -/
structure Proxy where
  dockerfile : Bytes
  dockerignore : Bytes

/-- What does not change: the proxy, what a file opened at a path holds, and the digest of
the context that the walk records. -/
structure Sender where
  proxy : Option Proxy
  contents : Bytes → Bytes
  digest : Bytes

/-- `filepath.Join(DockerfileStaging, "Dockerfile")` -/
def syntheticDockerfile : Bytes :=
  Filepath.join Fileutils.dockerfileStaging (lit "Dockerfile")

def syntheticDockerignore : Bytes :=
  Filepath.join Fileutils.dockerfileStaging (lit "Dockerfile.dockerignore")

namespace Sender

/-- The reader that `sendFile` has without opening a file. -/
def synthetic (c : Sender) (path : Bytes) : Option Bytes :=
  if path = syntheticDockerfile then c.proxy.map Proxy.dockerfile
  else if path = syntheticDockerignore then c.proxy.map Proxy.dockerignore
  else none

/-- What `sendFile` sends for a path. -/
def bytesOf (c : Sender) (path : Bytes) : Bytes := (c.synthetic path).getD (c.contents path)

end Sender

/-! ## The goroutines -/

/-- `walk`, with the entries still to come and the number of the next one. -/
inductive WalkPoint where
  /-- the callback, up to the map of files -/
  | entry (left : List Stat) (i : UInt32)
  /-- `s.conn.SendMsg` of an entry -/
  | send (st : Stat) (left : List Stat) (i : UInt32)
  | sendLast
  /-- `s.conn.SendMsg` of the error -/
  | report
  | returned

inductive WorkerPoint where
  /-- `range s.sendpipeline` -/
  | recv
  /-- `ctx.Done()` -/
  | check (h : SendHandle)
  /-- `sendFile` -/
  | sendFile (h : SendHandle)
  /-- `io.CopyBuffer`, with what is left to copy; a `bytes.Reader` is written at once -/
  | copy (h : SendHandle) (whole : Bool) (left : Bytes)
  | returned

/-- The receive loop. -/
inductive ReceivePoint where
  /-- `ctx.Done()` -/
  | select
  /-- `s.conn.RecvMsg` -/
  | recvMsg
  /-- `queue`, up to the send on the channel -/
  | queue (id : UInt32)
  /-- `s.sendpipeline <- &sendHandle{id, p}` -/
  | push (h : SendHandle)
  /-- `s.conn.SendMsg` of `PACKET_FIN` -/
  | fin
  | returned

/-- The connection, the `sender`, and the two goroutines there is one of. -/
structure Shared where
  walk : WalkPoint
  receive : ReceivePoint
  /-- `s.files` -/
  files : AList (fun _ : UInt32 => Bytes)
  sendpipeline : Chan SendHandle 128
  /-- `close(s.sendpipeline)` has been called -/
  closed : Bool
  /-- the context is cancelled -/
  cancelled : Bool
  /-- `_checksum` of the `FS` -/
  checksum : Bytes
  /-- what was sent on the connection -/
  sent : List Packet
  /-- what `RecvMsg` has returned -/
  received : List Incoming
  /-- the numbers announced for regular files -/
  announced : List UInt32
  /-- the numbers whose requests were accepted -/
  accepted : List UInt32

def Shared.initial (entries : List Stat) : Shared where
  walk := .entry entries 0
  receive := .select
  files := ∅
  sendpipeline := .empty
  closed := false
  cancelled := false
  checksum := []
  sent := []
  received := []
  announced := []
  accepted := []

/-- The workers are tasks over that. -/
abbrev State : Type := Tasks Shared WorkerPoint

/-- The sender at the start of `run`, with a walk that will produce `entries`. -/
def initial (entries : List Stat) : State := ⟨.initial entries, List.replicate 64 .recv⟩

inductive Event where
  /-- nothing -/
  | tau
  /-- the walk, `SendMsg`, `RecvMsg`, opening or reading a file fails -/
  | fail
  | cancel
  /-- `RecvMsg` returns a packet -/
  | recv (p : Incoming)
  /-- `s.fs.Open` -/
  | opens (path : Bytes)
  /-- the request is refused: "invalid file id" -/
  | refuse (id : UInt32)

namespace Shared

/-- `s.conn.SendMsg` -/
def send (s : Shared) (p : Packet) : Shared := { s with sent := s.sent ++ [p] }

/-- The map of files after the callback of the walk. -/
def note (s : Shared) (st : Stat) (i : UInt32) : Shared :=
  if fileCanRequestData st.mode then
    { s with files := s.files.insert i st.path, announced := s.announced ++ [i] }
  else s

/-- The receive loop ends: `defer close(s.sendpipeline)`. -/
def endReceive (s : Shared) : Shared := { s with receive := .returned, closed := true }

end Shared

/-- The steps of `walk`. -/
inductive WalkStep (c : Sender) : Shared → Event → Shared → Prop
  | note {s : Shared} {st : Stat} {left : List Stat} {i : UInt32}
      (hp : s.walk = .entry (st :: left) i) :
      WalkStep c s .tau { s.note st i with walk := .send st left (i + 1) }
  | walkEnd {s : Shared} {i : UInt32} (hp : s.walk = .entry [] i) :
      WalkStep c s .tau { s with checksum := c.digest, walk := .sendLast }
  | sendStat {s : Shared} {st : Stat} {left : List Stat} {i : UInt32}
      (hp : s.walk = .send st left i) :
      WalkStep c s .tau { s.send (.stat (some st)) with walk := .entry left i }
  | sendLast {s : Shared} (hp : s.walk = .sendLast) :
      WalkStep c s .tau { s.send (.stat none) with walk := .returned }
  | walkFails {s : Shared} {left : List Stat} {i : UInt32} (hp : s.walk = .entry left i) :
      WalkStep c s .fail { s with walk := .report }
  | sendStatFails {s : Shared} {st : Stat} {left : List Stat} {i : UInt32}
      (hp : s.walk = .send st left i) : WalkStep c s .fail { s with walk := .report }
  | sendLastFails {s : Shared} (hp : s.walk = .sendLast) :
      WalkStep c s .fail { s with walk := .report }
  | report {s : Shared} (hp : s.walk = .report) :
      WalkStep c s .tau { s.send .err with walk := .returned }
  | reportFails {s : Shared} (hp : s.walk = .report) :
      WalkStep c s .fail { s with walk := .returned }

/-- The steps of the receive loop. -/
inductive ReceiveStep : Shared → Event → Shared → Prop
  | stop {s : Shared} (hp : s.receive = .select) (hc : s.cancelled = true) :
      ReceiveStep s .tau s.endReceive
  | next {s : Shared} (hp : s.receive = .select) (hc : s.cancelled = false) :
      ReceiveStep s .tau { s with receive := .recvMsg }
  | recvReq {s : Shared} (id : UInt32) (hp : s.receive = .recvMsg) :
      ReceiveStep s (.recv (.req id))
        { s with received := s.received ++ [.req id], receive := .queue id }
  | recvFin {s : Shared} (hp : s.receive = .recvMsg) :
      ReceiveStep s (.recv .fin) { s with received := s.received ++ [.fin], receive := .fin }
  | recvErr {s : Shared} (hp : s.receive = .recvMsg) :
      ReceiveStep s (.recv .err) { s.endReceive with received := s.received ++ [.err] }
  | recvOther {s : Shared} (hp : s.receive = .recvMsg) :
      ReceiveStep s (.recv .other)
        { s with received := s.received ++ [.other], receive := .select }
  | recvFails {s : Shared} (hp : s.receive = .recvMsg) : ReceiveStep s .fail s.endReceive
  | refuse {s : Shared} {id : UInt32} (hp : s.receive = .queue id)
      (h : s.files.lookup id = none) : ReceiveStep s (.refuse id) s.endReceive
  | queue {s : Shared} {id : UInt32} {path : Bytes} (hp : s.receive = .queue id)
      (h : s.files.lookup id = some path) :
      ReceiveStep s .tau { s with
        files := s.files.erase id
        accepted := s.accepted ++ [id]
        receive := .push ⟨id, path⟩ }
  | push {s : Shared} {h : SendHandle} {ch : Chan SendHandle 128} (hp : s.receive = .push h)
      (hsend : s.sendpipeline.send h = some ch) :
      ReceiveStep s .tau { s with sendpipeline := ch, receive := .select }
  | sendFin {s : Shared} (hp : s.receive = .fin) : ReceiveStep s .tau (s.send .fin).endReceive
  | sendFinFails {s : Shared} (hp : s.receive = .fin) : ReceiveStep s .fail s.endReceive

/-- The steps of a worker. -/
inductive WorkerStep (c : Sender) : LocalStep Shared WorkerPoint Event
  | take {s : Shared} {h : SendHandle} {ch : Chan SendHandle 128}
      (hrecv : s.sendpipeline.recv = some (h, ch)) :
      WorkerStep c s .recv .tau { s with sendpipeline := ch } (.check h) []
  | drained {s : Shared} (hempty : s.sendpipeline.recv = none) (hclosed : s.closed = true) :
      WorkerStep c s .recv .tau s .returned []
  | stop {s : Shared} {h : SendHandle} (hc : s.cancelled = true) :
      WorkerStep c s (.check h) .tau s .returned []
  | proceed {s : Shared} {h : SendHandle} (hc : s.cancelled = false) :
      WorkerStep c s (.check h) .tau s (.sendFile h) []
  | openBytes {s : Shared} {h : SendHandle} {bytes : Bytes}
      (hbytes : c.synthetic h.path = some bytes) :
      WorkerStep c s (.sendFile h) .tau s (.copy h true bytes) []
  | openFile {s : Shared} {h : SendHandle} (hfile : c.synthetic h.path = none) :
      WorkerStep c s (.sendFile h) (.opens h.path) s (.copy h false (c.contents h.path)) []
  | openFails {s : Shared} {h : SendHandle} (hfile : c.synthetic h.path = none) :
      WorkerStep c s (.sendFile h) .fail s .returned []
  | chunk {s : Shared} {h : SendHandle} {whole : Bool} {left : Bytes} (n : Nat) (hpos : 0 < n)
      (hle : n ≤ left.length) (hn : if whole then n = left.length else n ≤ 2 ^ 20) :
      WorkerStep c s (.copy h whole left) .tau (s.send (.data h.id (left.take n)))
        (.copy h whole (left.drop n)) []
  | finish {s : Shared} {h : SendHandle} {whole : Bool} :
      WorkerStep c s (.copy h whole []) .tau (s.send (.data h.id [])) .recv []
  | copyFails {s : Shared} {h : SendHandle} {whole : Bool} {left : Bytes} :
      WorkerStep c s (.copy h whole left) .fail s .returned []

/-- One step of the sender.  The group cancels the context after the first error of a
goroutine, and somebody else may do so at any time. -/
inductive Step (c : Sender) : State → Event → State → Prop
  | walk {s s' : Shared} {ws : List WorkerPoint} {e : Event} (h : WalkStep c s e s') :
      Step c ⟨s, ws⟩ e ⟨s', ws⟩
  | receive {s s' : Shared} {ws : List WorkerPoint} {e : Event} (h : ReceiveStep s e s') :
      Step c ⟨s, ws⟩ e ⟨s', ws⟩
  | worker {s s' : State} {e : Event} (h : TaskStep (WorkerStep c) s e s') : Step c s e s'
  | cancel {s : Shared} {ws : List WorkerPoint} :
      Step c ⟨s, ws⟩ .cancel ⟨{ s with cancelled := true }, ws⟩

end BuilderShim.Fssync
