/-
  Fileutils/TarStream.lean --- the goroutine that reads the stream of a transfer,
  and its channels (pkg/fileutils/tarxfer.go, `startTar`).

  It takes packets from the demultiplexer and passes them on: the header on a
  channel with one slot, data on one without, and errors, or the end, on one with
  one slot.  `Receive` answers its operations from these channels (`tarExec`); the
  two and their contexts make up a `Transfer`.
-/
import BuilderShim.Foundation.Chan
import BuilderShim.Foundation.Lift
import BuilderShim.Foundation.Machine
import BuilderShim.Fileutils.Receive
import BuilderShim.Stream.Packet

set_option autoImplicit false

namespace BuilderShim.Fileutils

open BuilderShim.Foundation
open BuilderShim.Posix
open BuilderShim.Stream

/-! ## Packets -/

/-- What a packet of the transfer is. -/
inductive TarPacket where
  | error (msg : Bytes)
  | header (h : TarStreamHeader)
  | data (d : Bytes) (complete : Bool)
  | unexpected

def handleBuildTransfer (transfer : BuildTransfer) : TarPacket :=
  match transfer.metadata.lookup (lit "error") with
  | some errMsg => .error errMsg
  | none =>
      match transfer.metadata.lookup (lit "hash") with
      | some hash => .header ⟨hash, transfer.complete⟩
      | none => .data transfer.data transfer.complete

def handleImageTransfer (transfer : ImageTransfer) : TarPacket :=
  match transfer.metadata.lookup (lit "error") with
  | some errMsg => .error errMsg
  | none => .data transfer.data transfer.complete

def tarPacket (resp : ClientStream) : TarPacket :=
  match resp.getBuildTransfer with
  | some bt => handleBuildTransfer bt
  | none =>
      match resp.getImageTransfer with
      | some it => handleImageTransfer it
      | none => .unexpected

/-- `normalizeTarReceiveError` -/
def normalizeTarReceiveError (e : Err) : Err :=
  let ended : Err := .text (lit "tar stream ended before completion")
  match e with
  | .eof => ended
  | .text msg => if lit "EOF" <:+: msg ∨ lit "transport is closing" <:+: msg then ended else e
  | e => e

/-! ## The goroutine -/

/-- Where `startTar` is. -/
inductive TarPoint where
  /-- `demux.Recv()` -/
  | recv
  /-- `headerCh <- ..` -/
  | sendHeader (h : TarStreamHeader)
  /-- `dataCh <- ..` -/
  | sendData (d : Bytes) (complete : Bool)
  /-- `errCh <- ..`, after which the loop goes on or the goroutine returns -/
  | sendErr (e : Option Err) (again : Bool)
  /-- the deferred calls, last one first -/
  | closeData
  | closeHeader
  | closeErr
  | returned
  deriving DecidableEq

/-- What is done about a packet. -/
def TarPacket.next : TarPacket → TarPoint
  | .error msg => .sendErr (some (.text (lit "server error in TAR mode: " ++ msg))) false
  | .header h => .sendHeader h
  | .data d complete => .sendData d complete
  | .unexpected => .sendErr (some (.text (lit "tar stream: unexpected packet type"))) true

/-- After the header or data have been passed on. -/
def TarPoint.afterSend (complete : Bool) : TarPoint :=
  if complete then .sendErr none false else .recv

/-- The channels, the goroutine that sends on them, and the two contexts. -/
structure TarLink where
  /-- the packets that the demultiplexer has still to deliver -/
  packets : List ClientStream
  producer : TarPoint
  errCh : Chan (Option Err) 1
  errClosed : Bool
  headerCh : Chan TarStreamHeader 1
  headerClosed : Bool
  dataClosed : Bool
  /-- the error of the context of `Receive`, once it is done -/
  ctxErr : Option Err
  /-- the same for the context of the demultiplexer -/
  demuxErr : Option Err
  /-- what the callback of the walk has been called with, for statements only -/
  visited : List WalkEntry

def startLink (packets : List ClientStream) : TarLink where
  packets := packets
  producer := .recv
  errCh := .empty
  errClosed := false
  headerCh := .empty
  headerClosed := false
  dataClosed := false
  ctxErr := none
  demuxErr := none
  visited := []

/-- One step of `startTar`.  A send on the data channel is a step of the one who
receives. -/
inductive StartTarStep : TarLink → TarLink → Prop
  | recv {l : TarLink} {resp : ClientStream} {rest : List ClientStream}
      (hp : l.producer = .recv) (hpackets : l.packets = resp :: rest) :
      StartTarStep l { l with packets := rest, producer := (tarPacket resp).next }
  | recvDone {l : TarLink} {e : Err} (hp : l.producer = .recv) (hdone : l.demuxErr = some e) :
      StartTarStep l { l with producer := .sendErr (some (normalizeTarReceiveError e)) false }
  | sendHeader {l : TarLink} {h : TarStreamHeader} {ch : Chan TarStreamHeader 1}
      (hp : l.producer = .sendHeader h) (hch : l.headerCh.send h = some ch) :
      StartTarStep l { l with headerCh := ch, producer := .afterSend h.complete }
  | sendErr {l : TarLink} {e : Option Err} {again : Bool} {ch : Chan (Option Err) 1}
      (hp : l.producer = .sendErr e again) (hch : l.errCh.send e = some ch) :
      StartTarStep l { l with errCh := ch, producer := if again then .recv else .closeData }
  | closeData {l : TarLink} (hp : l.producer = .closeData) :
      StartTarStep l { l with dataClosed := true, producer := .closeHeader }
  | closeHeader {l : TarLink} (hp : l.producer = .closeHeader) :
      StartTarStep l { l with headerClosed := true, producer := .closeErr }
  | closeErr {l : TarLink} (hp : l.producer = .closeErr) :
      StartTarStep l { l with errClosed := true, producer := .returned }

/-! ## What the receiver is answered -/

/-- The `select` over the header and the error channel; the flags say which of them are not
nil. -/
inductive HeaderSelected (header err : Bool) : TarLink → HeaderEvent → TarLink → Prop
  | header {l : TarLink} {h : TarStreamHeader} {ch : Chan TarStreamHeader 1}
      (hopen : header = true) (hch : l.headerCh.recv = some (h, ch)) :
      HeaderSelected header err l (.header h) { l with headerCh := ch }
  | headerClosed {l : TarLink} (hopen : header = true) (hch : l.headerCh.items = [])
      (hclosed : l.headerClosed = true) : HeaderSelected header err l .headerClosed l
  | err {l : TarLink} {e : Option Err} {ch : Chan (Option Err) 1} (hopen : err = true)
      (hch : l.errCh.recv = some (e, ch)) :
      HeaderSelected header err l (.err e) { l with errCh := ch }
  | errClosed {l : TarLink} (hopen : err = true) (hch : l.errCh.items = [])
      (hclosed : l.errClosed = true) : HeaderSelected header err l .errClosed l
  | done {l : TarLink} {e : Err} (hdone : l.ctxErr = some e) :
      HeaderSelected header err l (.done e) l

/-- The `select` over the data and the error channel. -/
inductive DataSelected (err : Bool) : TarLink → DataEvent → TarLink → Prop
  | data {l : TarLink} {d : Bytes} {complete : Bool} (hp : l.producer = .sendData d complete) :
      DataSelected err l (.data d) { l with producer := .afterSend complete }
  | dataClosed {l : TarLink} (hclosed : l.dataClosed = true) : DataSelected err l .dataClosed l
  | err {l : TarLink} {e : Option Err} {ch : Chan (Option Err) 1} (hopen : err = true)
      (hch : l.errCh.recv = some (e, ch)) : DataSelected err l (.err e) { l with errCh := ch }
  | errClosed {l : TarLink} (hopen : err = true) (hch : l.errCh.items = [])
      (hclosed : l.errClosed = true) : DataSelected err l .errClosed l
  | done {l : TarLink} {e : Err} (hdone : l.ctxErr = some e) : DataSelected err l (.done e) l

/-- `<-errCh` -/
inductive ErrReceived : TarLink → Option Err → TarLink → Prop
  | err {l : TarLink} {e : Option Err} {ch : Chan (Option Err) 1}
      (hch : l.errCh.recv = some (e, ch)) : ErrReceived l e { l with errCh := ch }
  | closed {l : TarLink} (hch : l.errCh.items = []) (hclosed : l.errClosed = true) :
      ErrReceived l none l

/-- The `select` over the error channel that has a default. -/
inductive ErrPolled (err : Bool) : TarLink → Option Err → TarLink → Prop
  | err {l : TarLink} {e : Option Err} {l' : TarLink} (hopen : err = true)
      (h : ErrReceived l e l') : ErrPolled err l e l'
  | empty {l : TarLink}
      (hnone : err = true → l.errCh.items = [] ∧ l.errClosed = false) : ErrPolled err l none l

def tarExec : Exec HostSig TarLink
  | .selectHeader header err, l, r, l' => HeaderSelected header err l r l'
  | .selectData err, l, r, l' => DataSelected err l r l'
  | .recvErr, l, r, l' => ErrReceived l r l'
  | .pollErr err, l, r, l' => ErrPolled err l r l'
  | .visit entry, l, _, l' => l' = { l with visited := l.visited ++ [entry] }

/-! ## The transfer -/

/-- `Receive`, its file system and its link to the goroutine. -/
structure Transfer (σ ρ : Type) where
  receiver : Recv ρ
  world : σ
  link : TarLink

inductive TransferEvent where
  | receiver
  | producer
  /-- the context of `Receive` is cancelled -/
  | cancel (e : Err)
  /-- the context of the demultiplexer is cancelled -/
  | cancelDemux (e : Err)

section

variable {σ ρ : Type}

inductive TransferStep (E : Exec FsSig σ) :
    Transfer σ ρ → TransferEvent → Transfer σ ρ → Prop
  | receiver {s : Transfer σ ρ} {p : Recv ρ} {t : σ × TarLink}
      (h : Step (Exec.join Prod.fst Prod.snd E tarExec) s.receiver (s.world, s.link) p t) :
      TransferStep E s .receiver ⟨p, t.1, t.2⟩
  | producer {s : Transfer σ ρ} {l : TarLink} (h : StartTarStep s.link l) :
      TransferStep E s .producer { s with link := l }
  | cancel {s : Transfer σ ρ} (e : Err) :
      TransferStep E s (.cancel e) { s with link := { s.link with ctxErr := some e } }
  | cancelDemux {s : Transfer σ ρ} (e : Err) :
      TransferStep E s (.cancelDemux e) { s with link := { s.link with demuxErr := some e } }

abbrev TransferReach (E : Exec FsSig σ) (s t : Transfer σ ρ) : Prop :=
  Reach (TransferStep E) (fun _ _ => True) s t

end

end BuilderShim.Fileutils
