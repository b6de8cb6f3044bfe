/-
  Stream/Pipeline.lean --- the pipeline from the client's packets to those who wait
  for them (pkg/stream/pipeline.go, stage.go, processor.go).

  One goroutine receives packets and hands each to the first stage that takes it;
  each stage has a goroutine (`Run`) that looks the packet's handler up by its build
  id, in a table that other goroutines change, and passes the packet on to it.  The
  handlers are `Demultiplexer`s; who registers, cancels and reads them is left open
  here (`Event`), so that the pipeline is the same for every user of it.

  A goroutine stands at a point, in front of its next access to something shared.
  Packets are numbered as they arrive, which stands for the identity of the pointer
  that is passed along; the fields `arrived`, `received` and `since` are a history
  that no step reads.
-/
import BuilderShim.Foundation.Chan
import BuilderShim.Foundation.Machine
import BuilderShim.Stream.Packet

set_option autoImplicit false

namespace BuilderShim.Stream

open BuilderShim.Foundation

/-- A packet that has arrived. -/
structure Msg where
  serial : Nat
  packet : ClientStream

/-- `Demultiplexer` -/
structure Demultiplexer where
  /-- the stage in whose table it is -/
  stage : Nat
  id : Bytes
  filter : FilterFn
  /-- `closeFn` is the table's `Delete`, or does nothing -/
  removes : Bool
  /-- its context is cancelled -/
  closed : Bool
  ch : Chan Msg 32
  /-- what `Recv` has returned so far -/
  received : List Msg
  /-- how many packets had arrived when it was registered -/
  since : Nat

/-- What has been accepted for the consumer. -/
def Demultiplexer.accepted (D : Demultiplexer) : List Msg := D.received ++ D.ch.items

/-- The `demux` table of a stage: the handlers by number. -/
abbrev Table : Type := AList (fun _ : Bytes => Nat)

/-- `UnimplementedBaseStage.Run`; `d` is the handler that was loaded for the packet. -/
inductive RunPoint where
  | select
  /-- `b.demux.Load` -/
  | load (m : Msg)
  /-- `handler.Closed()` -/
  | check (m : Msg) (d : Nat)
  /-- `b.demux.Delete(handler.id)` -/
  | delete (m : Msg) (d : Nat)
  /-- `handler.Accept` -/
  | accept (m : Msg) (d : Nat)
  /-- `d.closeFn(d.id)` in `Accept` -/
  | close (m : Msg) (d : Nat)
  /-- `b.demux.Range`, with the keys it still has to visit -/
  | range (left : List Bytes)
  | returned

structure Stage where
  recvCh : Chan Msg 4
  table : Table
  run : RunPoint

/-- `receivePackets` -/
inductive ReceivePoint where
  /-- `p.raw.Recv()` -/
  | recv
  /-- `stage.Process`, at the send on the stage's channel -/
  | process (i : Nat) (m : Msg)
  | returned

/-- With the packet dispatched, or dropped. -/
def ReceivePoint.after (m : Msg) : Option Nat → ReceivePoint
  | some i => .process i m
  | none => .recv

/-- `StreamPipeline`, with its goroutines and the handlers in the order they were
registered. -/
structure Pipeline where
  cancelled : Bool
  receiver : ReceivePoint
  stages : Nat → Stage
  demuxes : List Demultiplexer
  arrived : List Msg

/-- `NewPipeline`, with `receivePackets` started. -/
def Pipeline.initial : Pipeline where
  cancelled := false
  receiver := .recv
  stages := fun _ => ⟨.empty, ∅, .select⟩
  demuxes := []
  arrived := []

/-- `dispatch`: the first stage whose filter has no error.  Whatever the error is, the scan
goes on. -/
def dispatch (filters : List FilterFn) (c : ClientStream) : Option Nat :=
  filters.findIdx? fun f => (f c).isNone

/-- `NewDemuxWithContext`, as registered with a stage. -/
def newDemux (i : Nat) (id : Bytes) (filter : FilterFn) (removes closed : Bool) (since : Nat) :
    Demultiplexer where
  stage := i
  id := id
  filter := filter
  removes := removes
  closed := closed
  ch := .empty
  received := []
  since := since

/-- `d.closeFn(d.id)` -/
def Demultiplexer.closeFn (D : Demultiplexer) (t : Table) : Table :=
  if D.removes then t.erase D.id else t

/-- What the pipeline does not decide. -/
inductive Event where
  /-- nothing -/
  | tau
  /-- the client sends a packet -/
  | arrive (c : ClientStream)
  /-- `raw.Recv` fails -/
  | recvError
  /-- the context of the pipeline is cancelled elsewhere -/
  | cancel
  /-- `RegisterDemux`, of a new handler; its context may be cancelled already -/
  | register (i : Nat) (id : Bytes) (filter : FilterFn) (removes closed : Bool)
  /-- `Recv` of the handler returns a packet -/
  | receive (d : Nat) (m : Msg)
  /-- the context of the handler is cancelled -/
  | cancelDemux (d : Nat)
  /-- `Recv` of the handler ends with its context -/
  | closeDemux (d : Nat)
  /-- `b.demux.Delete`, after a send that has failed -/
  | remove (i : Nat) (id : Bytes)

/-- One step of `Run`, on the handlers and the stage. -/
inductive RunStep (cancelled : Bool) (ds : List Demultiplexer) :
    Stage → List Demultiplexer → Stage → Prop
  | done {st : Stage} (hrun : st.run = .select) (hc : cancelled = true) (left : List Bytes)
      (hleft : left.Perm st.table.keys) : RunStep cancelled ds st ds { st with run := .range left }
  | visit {st : Stage} {left : List Bytes} (hrun : st.run = .range left) (id : Bytes) :
      RunStep cancelled ds st ds
        { st with table := st.table.erase id, run := .range (left.erase id) }
  | rangeEnd {st : Stage} (hrun : st.run = .range []) :
      RunStep cancelled ds st ds { st with run := .returned }
  | take {st : Stage} {m : Msg} {ch : Chan Msg 4} (hrun : st.run = .select)
      (hrecv : st.recvCh.recv = some (m, ch)) :
      RunStep cancelled ds st ds { st with recvCh := ch, run := .load m }
  | missing {st : Stage} {m : Msg} (hrun : st.run = .load m)
      (h : st.table.lookup m.packet.buildId = none) :
      RunStep cancelled ds st ds { st with run := .select }
  | load {st : Stage} {m : Msg} {d : Nat} (hrun : st.run = .load m)
      (h : st.table.lookup m.packet.buildId = some d) :
      RunStep cancelled ds st ds { st with run := .check m d }
  | closed {st : Stage} {m : Msg} {d : Nat} {D : Demultiplexer} (hrun : st.run = .check m d)
      (hd : ds[d]? = some D) (h : D.closed = true) :
      RunStep cancelled ds st ds { st with run := .delete m d }
  | opened {st : Stage} {m : Msg} {d : Nat} {D : Demultiplexer} (hrun : st.run = .check m d)
      (hd : ds[d]? = some D) (h : D.closed = false) :
      RunStep cancelled ds st ds { st with run := .accept m d }
  | delete {st : Stage} {m : Msg} {d : Nat} {D : Demultiplexer} (hrun : st.run = .delete m d)
      (hd : ds[d]? = some D) :
      RunStep cancelled ds st ds { st with table := st.table.erase D.id, run := .select }
  | ignore {st : Stage} {m : Msg} {d : Nat} {D : Demultiplexer} {e : FilterErr}
      (hrun : st.run = .accept m d) (hd : ds[d]? = some D) (h : D.filter m.packet = some e) :
      RunStep cancelled ds st ds { st with run := .select }
  | accept {st : Stage} {m : Msg} {d : Nat} {D : Demultiplexer} {ch : Chan Msg 32}
      (hrun : st.run = .accept m d) (hd : ds[d]? = some D) (h : D.filter m.packet = none)
      (hsend : D.ch.send m = some ch) :
      RunStep cancelled ds st (ds.set d { D with ch := ch }) { st with run := .select }
  | acceptDone {st : Stage} {m : Msg} {d : Nat} {D : Demultiplexer}
      (hrun : st.run = .accept m d) (hd : ds[d]? = some D) (h : D.filter m.packet = none)
      (hclosed : D.closed = true) : RunStep cancelled ds st ds { st with run := .close m d }
  | close {st : Stage} {m : Msg} {d : Nat} {D : Demultiplexer} (hrun : st.run = .close m d)
      (hd : ds[d]? = some D) :
      RunStep cancelled ds st ds { st with table := D.closeFn st.table, run := .select }

namespace Pipeline

/-- A stage and the handlers after a step of its `Run`. -/
def setRun (s : Pipeline) (i : Nat) (ds : List Demultiplexer) (st : Stage) : Pipeline :=
  { s with demuxes := ds, stages := Function.update s.stages i st }

abbrev setStage (s : Pipeline) (i : Nat) (st : Stage) : Pipeline := s.setRun i s.demuxes st

/-- The table of a stage is changed. -/
def setTable (s : Pipeline) (i : Nat) (t : Table) : Pipeline :=
  s.setStage i { s.stages i with table := t }

def setDemux (s : Pipeline) (d : Nat) (D : Demultiplexer) : Pipeline :=
  { s with demuxes := s.demuxes.set d D }

/-- The receiving goroutine has a packet, with the next number. -/
def receive (filters : List FilterFn) (s : Pipeline) (c : ClientStream) : Pipeline :=
  { s with
    arrived := s.arrived ++ [⟨s.arrived.length, c⟩]
    receiver := .after ⟨s.arrived.length, c⟩ (dispatch filters c) }

/-- One step of the pipeline, or of those who use it. -/
inductive Step (filters : List FilterFn) : Pipeline → Event → Pipeline → Prop
  | arrive {s : Pipeline} (c : ClientStream) (h : s.receiver = .recv) :
      Step filters s (.arrive c) (s.receive filters c)
  | recvError {s : Pipeline} (h : s.receiver = .recv) :
      Step filters s .recvError { s with receiver := .returned, cancelled := true }
  | process {s : Pipeline} {i : Nat} {m : Msg} {ch : Chan Msg 4}
      (h : s.receiver = .process i m) (hsend : (s.stages i).recvCh.send m = some ch) :
      Step filters s .tau
        { s.setStage i { s.stages i with recvCh := ch } with receiver := .recv }
  | run {s : Pipeline} (i : Nat) {ds : List Demultiplexer} {st : Stage} (hi : i < filters.length)
      (h : RunStep s.cancelled s.demuxes (s.stages i) ds st) :
      Step filters s .tau (s.setRun i ds st)
  | cancel {s : Pipeline} : Step filters s .cancel { s with cancelled := true }
  | register {s : Pipeline} (i : Nat) (id : Bytes) (filter : FilterFn) (removes closed : Bool) :
      Step filters s (.register i id filter removes closed)
        { s.setTable i ((s.stages i).table.insert id s.demuxes.length) with
          demuxes := s.demuxes ++ [newDemux i id filter removes closed s.arrived.length] }
  | receive {s : Pipeline} (d : Nat) {m : Msg} {D : Demultiplexer} {ch : Chan Msg 32}
      (hd : s.demuxes[d]? = some D) (hrecv : D.ch.recv = some (m, ch)) :
      Step filters s (.receive d m)
        (s.setDemux d { D with ch := ch, received := D.received ++ [m] })
  | cancelDemux {s : Pipeline} (d : Nat) {D : Demultiplexer} (hd : s.demuxes[d]? = some D) :
      Step filters s (.cancelDemux d) (s.setDemux d { D with closed := true })
  | closeDemux {s : Pipeline} (d : Nat) {D : Demultiplexer} (hd : s.demuxes[d]? = some D)
      (h : D.closed = true) :
      Step filters s (.closeDemux d) (s.setTable D.stage (D.closeFn (s.stages D.stage).table))
  | remove {s : Pipeline} (i : Nat) (id : Bytes) :
      Step filters s (.remove i id) (s.setTable i ((s.stages i).table.erase id))

end Pipeline

end BuilderShim.Stream
