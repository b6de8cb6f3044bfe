/-
  Fileutils/Abandoned.lean --- the goroutine of a transfer after `Receive` has
  returned.

  It does not watch a context while it sends.  The header and the error channel
  have one slot each, and the data channel has none, so once nobody receives any
  more it gets past one header and one error and past nothing else.  `Receive` may
  return at any time, so it is the packets that decide whether the goroutine ends.
-/
import BuilderShim.Fileutils.TarStream

set_option autoImplicit false

namespace BuilderShim.Fileutils

open BuilderShim.Foundation
open BuilderShim.Posix
open BuilderShim.Stream

/-! ## What the receiver does to the link -/

section

variable {σ ρ : Type} {E : Exec FsSig σ} {s s' : Transfer σ ρ} {e : TransferEvent}
variable {l l' : TarLink}

/-- The goroutine is where it was, and no channel has got fuller. -/
structure Drained (l l' : TarLink) : Prop where
  producer : l'.producer = l.producer
  packets : l'.packets = l.packets
  header : l.headerCh.items = [] → l'.headerCh.items = []
  err : l.errCh.items = [] → l'.errCh.items = []

theorem Drained.refl (l : TarLink) : Drained l l := ⟨rfl, rfl, id, id⟩

theorem Drained.of_header {h : TarStreamHeader} {ch : Chan TarStreamHeader 1}
    (hch : l.headerCh.recv = some (h, ch)) : Drained l { l with headerCh := ch } := by
  refine ⟨rfl, rfl, fun hnil => ?_, id⟩
  rw [Chan.items_of_recv hch] at hnil
  cases hnil

theorem Drained.of_err {e : Option Err} {ch : Chan (Option Err) 1}
    (hch : l.errCh.recv = some (e, ch)) : Drained l { l with errCh := ch } := by
  refine ⟨rfl, rfl, id, fun hnil => ?_⟩
  rw [Chan.items_of_recv hch] at hnil
  cases hnil

theorem ErrReceived.drained {e : Option Err} (h : ErrReceived l e l') : Drained l l' := by
  cases h with
  | err hch => exact .of_err hch
  | closed _ _ => exact .refl l

/-- Unless it takes data. -/
theorem tarExec_drained {op : HostOp} {r : HostOp.Res op}
    (hdata : ∀ d complete, l.producer ≠ .sendData d complete) (h : tarExec op l r l') :
    Drained l l' := by
  cases op with
  | selectHeader header err =>
      cases h with
      | header _ hch => exact .of_header hch
      | err _ hch => exact .of_err hch
      | headerClosed _ _ _ => exact .refl l
      | errClosed _ _ _ => exact .refl l
      | done _ => exact .refl l
  | selectData err =>
      cases h with
      | data hp => exact absurd hp (hdata _ _)
      | err _ hch => exact .of_err hch
      | dataClosed _ => exact .refl l
      | errClosed _ _ _ => exact .refl l
      | done _ => exact .refl l
  | recvErr => exact ErrReceived.drained h
  | pollErr err =>
      cases h with
      | err _ h => exact h.drained
      | empty _ => exact .refl l
  | visit entry =>
      obtain rfl : l' = _ := h
      exact ⟨rfl, rfl, id, id⟩

/-- A step of the receiver leaves the link alone or is one of its operations. -/
theorem receiver_link {p q : Recv ρ} {t t' : σ × TarLink}
    (h : Step (Exec.join Prod.fst Prod.snd E tarExec) p t q t') :
    t'.2 = t.2 ∨ ∃ op r, tarExec op t.2 r t'.2 := by
  cases h with
  | @call op _ _ _ r h =>
      cases op with
      | inl op => exact .inl h.2
      | inr op => exact .inr ⟨op, r, h.1⟩
  | iter => exact .inl rfl

/-! ## Streams that cannot hold the goroutine -/

/-- Up to the packet that ends it, the stream consists of at most one header; the flag says
whether there was one before. -/
def HeaderOnly : Bool → List ClientStream → Prop
  | _, [] => True
  | sent, resp :: rest =>
      match tarPacket resp with
      | .error _ => True
      | .header h => sent = false ∧ (h.complete = false → HeaderOnly true rest)
      | .data _ _ => False
      | .unexpected => False

/-- There is room for whatever the goroutine has to send. -/
def Roomy (l : TarLink) : Prop :=
  match l.producer with
  | .recv =>
      l.errCh.items = [] ∧
        ∃ sent, (sent = false → l.headerCh.items = []) ∧ HeaderOnly sent l.packets
  | .sendHeader h =>
      l.errCh.items = [] ∧ l.headerCh.items = [] ∧
        (h.complete = false → HeaderOnly true l.packets)
  | .sendData _ _ => False
  | .sendErr _ again => l.errCh.items = [] ∧ again = false
  | _ => True

theorem Roomy.not_sendData (h : Roomy l) (d : Bytes) (complete : Bool) :
    l.producer ≠ .sendData d complete := by
  intro hp
  rw [Roomy, hp] at h
  exact h

theorem Roomy.of_drained (h : Roomy l) (hd : Drained l l') : Roomy l' := by
  rw [Roomy, hd.producer, hd.packets]
  rw [Roomy] at h
  cases hp : l.producer with
  | recv =>
      rw [hp] at h
      obtain ⟨herr, sent, hsent, hpackets⟩ := h
      exact ⟨hd.err herr, sent, fun hs => hd.header (hsent hs), hpackets⟩
  | sendHeader hdr =>
      rw [hp] at h
      obtain ⟨herr, hheader, hpackets⟩ := h
      exact ⟨hd.err herr, hd.header hheader, hpackets⟩
  | sendData d complete =>
      rw [hp] at h
      exact h
  | sendErr e again =>
      rw [hp] at h
      exact ⟨hd.err h.1, h.2⟩
  | _ => trivial

/-- The point after a packet of such a stream. -/
theorem HeaderOnly.next {sent : Bool} {resp : ClientStream} {rest : List ClientStream}
    (h : HeaderOnly sent (resp :: rest)) :
    (∃ e, (tarPacket resp).next = .sendErr e false) ∨
      (sent = false ∧ ∃ hdr, (tarPacket resp).next = .sendHeader hdr ∧
        (hdr.complete = false → HeaderOnly true rest)) := by
  rw [HeaderOnly] at h
  cases hp : tarPacket resp with
  | error msg => exact .inl ⟨_, rfl⟩
  | header hdr =>
      rw [hp] at h
      exact .inr ⟨h.1, hdr, rfl, h.2⟩
  | data d complete =>
      rw [hp] at h
      exact h.elim
  | unexpected =>
      rw [hp] at h
      exact h.elim

theorem Roomy.producer (h : Roomy l) (hstep : StartTarStep l l') : Roomy l' := by
  cases hstep with
  | recv hp hpackets =>
      rw [Roomy, hp] at h
      obtain ⟨herr, sent, hsent, honly⟩ := h
      rw [hpackets] at honly
      rcases honly.next with ⟨e, hnext⟩ | ⟨hs, hdr, hnext, hrest⟩
      · rw [Roomy, hnext]
        exact ⟨herr, rfl⟩
      · rw [Roomy, hnext]
        exact ⟨herr, hsent hs, hrest⟩
  | recvDone hp hdone =>
      rw [Roomy, hp] at h
      exact ⟨h.1, rfl⟩
  | @sendHeader hdr ch hp hch =>
      rw [Roomy, hp] at h
      obtain ⟨herr, -, hrest⟩ := h
      cases hc : hdr.complete with
      | true => exact ⟨herr, rfl⟩
      | false =>
          refine ⟨herr, true, ?_, hrest hc⟩
          intro hs
          cases hs
  | sendErr hp hch =>
      rw [Roomy, hp] at h
      obtain ⟨-, rfl⟩ := h
      trivial
  | closeData hp => trivial
  | closeHeader hp => trivial
  | closeErr hp => trivial

theorem Roomy.step (h : Roomy s.link) (hstep : TransferStep E s e s') : Roomy s'.link := by
  cases hstep with
  | receiver hstep =>
      rcases receiver_link hstep with heq | ⟨op, r, hexec⟩
      · change Roomy _ at h
        rw [heq]
        exact h
      · exact h.of_drained (tarExec_drained h.not_sendData hexec)
  | producer hstep => exact h.producer hstep
  | cancel e => exact h
  | cancelDemux e => exact h

/-! ## Blocked for ever -/

/-- The goroutine is at a send. -/
def TarPoint.AtSend : TarPoint → Prop
  | .sendHeader _ => True
  | .sendData _ _ => True
  | .sendErr _ _ => True
  | _ => False

variable (E) in
/-- The goroutine is at a send, and stays there whatever happens. -/
def ProducerBlocked (s : Transfer σ ρ) : Prop :=
  s.link.producer.AtSend ∧
    ∀ s', TransferReach E s s' → s'.link.producer = s.link.producer

theorem Roomy.not_blocked (h : Roomy s.link) : ¬ ProducerBlocked E s := by
  rintro ⟨hat, hstays⟩
  have hmove : ∀ l, StartTarStep s.link l → l.producer = s.link.producer := fun l hstep =>
    hstays { s with link := l } (Reach.single trivial (.producer hstep))
  rw [Roomy] at h
  cases hp : s.link.producer with
  | sendHeader hdr =>
      rw [hp] at h
      obtain ⟨ch, hch⟩ := Chan.exists_send (by rw [h.2.1]; exact Nat.one_pos) hdr
      have hsame := hmove _ (.sendHeader hp hch)
      rw [hp] at hsame
      cases hc : hdr.complete with
      | true =>
          simp only [TarPoint.afterSend, hc] at hsame
          cases hsame
      | false =>
          simp only [TarPoint.afterSend, hc] at hsame
          cases hsame
  | sendErr e again =>
      rw [hp] at h
      obtain ⟨hroom, rfl⟩ := h
      obtain ⟨ch, hch⟩ := Chan.exists_send (by rw [hroom]; exact Nat.one_pos) e
      have hsame := hmove _ (.sendErr hp hch)
      rw [hp] at hsame
      cases hsame
  | sendData d complete =>
      rw [hp] at h
      exact h
  | _ =>
      rw [hp] at hat
      exact hat

/-- Nobody receives any more, and there is no room for what the goroutine has to send. -/
structure Stuck (s : Transfer σ ρ) : Prop where
  returned : ∃ a, s.receiver = .ret a
  full : match s.link.producer with
    | .sendHeader _ => s.link.headerCh.items ≠ []
    | .sendData _ _ => True
    | .sendErr _ _ => s.link.errCh.items ≠ []
    | _ => False

theorem send_of_full {α : Type} {ch : Chan α 1} (h : ch.items ≠ []) (x : α) :
    ch.send x = none := by
  have hpos := List.length_pos_iff.mpr h
  have hle := ch.bounded
  exact Chan.send_eq_none_iff.mpr (by omega)

theorem Stuck.not_producer (h : Stuck s) (hstep : StartTarStep s.link l) : False := by
  have hfull := h.full
  cases hstep with
  | sendHeader hp hch =>
      rw [hp] at hfull
      rw [send_of_full hfull] at hch
      cases hch
  | sendErr hp hch =>
      rw [hp] at hfull
      rw [send_of_full hfull] at hch
      cases hch
  | recv hp _ => rw [hp] at hfull; exact hfull
  | recvDone hp _ => rw [hp] at hfull; exact hfull
  | closeData hp => rw [hp] at hfull; exact hfull
  | closeHeader hp => rw [hp] at hfull; exact hfull
  | closeErr hp => rw [hp] at hfull; exact hfull

theorem Stuck.step (h : Stuck s) (hstep : TransferStep E s e s') :
    Stuck s' ∧ s'.link.producer = s.link.producer := by
  cases hstep with
  | receiver hstep =>
      obtain ⟨a, ha⟩ := h.returned
      rw [ha] at hstep
      exact (Step.of_ret hstep).elim
  | producer hstep => exact (h.not_producer hstep).elim
  | cancel e => exact ⟨⟨h.returned, h.full⟩, rfl⟩
  | cancelDemux e => exact ⟨⟨h.returned, h.full⟩, rfl⟩

theorem Stuck.blocked (h : Stuck s) : ProducerBlocked E s := by
  constructor
  · have hfull := h.full
    cases hp : s.link.producer with
    | sendHeader hdr => trivial
    | sendData d complete => trivial
    | sendErr e again => trivial
    | _ =>
        rw [hp] at hfull
        exact hfull
  · intro s' hrun
    have hinv := hrun.invariant (I := fun t => Stuck t ∧ t.link.producer = s.link.producer)
      ⟨h, rfl⟩ fun t e t' ht _ hstep => by
        obtain ⟨hstuck, hsame⟩ := ht.1.step hstep
        exact ⟨hstuck, hsame.trans ht.2⟩
    exact hinv.2

/-! ## The goroutine alone -/

/-- Once `Receive` has returned and the demultiplexer is cancelled, the goroutine comes to a
send that it cannot make, unless the stream is one that cannot hold it. -/
theorem exists_stuck {a : ρ} {w : σ} {err : Err} (packets : List ClientStream) :
    ∀ (sent : Bool) (l : TarLink), l.producer = .recv → l.packets = packets →
      l.errCh.items = [] → l.demuxErr = some err → (sent = false → l.headerCh.items = []) →
      (sent = true → l.headerCh.items ≠ []) → ¬ HeaderOnly sent packets →
      ∃ s', TransferReach E ⟨.ret a, w, l⟩ s' ∧ Stuck s' ∧ s'.link.demuxErr ≠ none := by
  induction packets with
  | nil =>
      intro sent l _ _ _ _ _ _ hnot
      exact absurd trivial hnot
  | cons resp rest ih =>
      intro sent l hp hpackets herr hdemux hempty hfull hnot
      have hdone : l.demuxErr ≠ none := by
        rw [hdemux]
        exact Option.some_ne_none err
      -- the goroutine takes the packet
      have hrecv : TransferReach E ⟨.ret a, w, l⟩
          ⟨.ret a, w, { l with packets := rest, producer := (tarPacket resp).next }⟩ :=
        .single trivial (.producer (.recv hp hpackets))
      rw [HeaderOnly] at hnot
      cases hpk : tarPacket resp with
      | error msg =>
          rw [hpk] at hnot
          exact absurd trivial hnot
      | data d complete =>
          rw [hpk] at hrecv
          exact ⟨_, hrecv, ⟨⟨a, rfl⟩, trivial⟩, hdone⟩
      | header hdr =>
          rw [hpk] at hnot hrecv
          cases sent with
          | true => exact ⟨_, hrecv, ⟨⟨a, rfl⟩, hfull rfl⟩, hdone⟩
          | false =>
              have hrest : hdr.complete = false ∧ ¬ HeaderOnly true rest := by
                by_contra hcon
                apply hnot
                refine ⟨rfl, fun hc => ?_⟩
                by_contra hno
                exact hcon ⟨hc, hno⟩
              obtain ⟨ch, hch⟩ := Chan.exists_send (by rw [hempty rfl]; exact Nat.one_pos) hdr
              have hitems := Chan.items_of_send hch
              have hsend := hrecv.tail trivial (.producer (.sendHeader rfl hch))
              simp only [TarPoint.afterSend, hrest.1] at hsend
              have hne : ch.items ≠ [] := by
                rw [hitems]
                exact List.append_ne_nil_of_right_ne_nil _ (List.cons_ne_nil _ _)
              obtain ⟨s', hrun, hs'⟩ := ih true
                { l with packets := rest, producer := .recv, headerCh := ch } rfl rfl herr hdemux
                (fun h => by cases h) (fun _ => hne) hrest.2
              exact ⟨s', hsend.trans hrun, hs'⟩
      | unexpected =>
          rw [hpk] at hrecv
          -- its error fills the slot, and there is no room for the one of the context
          obtain ⟨ch, hch⟩ := Chan.exists_send (by rw [herr]; exact Nat.one_pos)
            (some (Err.text (lit "tar stream: unexpected packet type")))
          have hitems := Chan.items_of_send hch
          have hsend := hrecv.tail trivial (.producer (.sendErr rfl hch))
          have hlast := hsend.tail trivial (.producer (.recvDone rfl hdemux))
          refine ⟨_, hlast, ⟨⟨a, rfl⟩, ?_⟩, hdone⟩
          change ch.items ≠ []
          rw [hitems]
          exact List.append_ne_nil_of_right_ne_nil _ (List.cons_ne_nil _ _)

/-- `Receive` returns as soon as its context is cancelled. -/
theorem receive_cancelled (x : Extern) (cacheBase : Bytes) (w : σ) {l : TarLink} {err : Err}
    (hctx : l.ctxErr = some err) :
    TransferReach E ⟨receive x cacheBase, w, l⟩ ⟨.ret (.error err, some err), w, l⟩ := by
  have hdone : HeaderSelected true true l (.done err) l := .done hctx
  have hselect : ∀ k : HeaderEvent → Recv (Except Err Bytes × Option Err),
      Step (Exec.join Prod.fst Prod.snd E tarExec) (.call (.inr (.selectHeader true true)) k)
        (w, l) (k (.done err)) (w, l) :=
    fun k => .call ⟨hdone, rfl⟩
  apply Reach.head trivial (TransferStep.receiver Step.iter)
  exact Reach.single trivial (TransferStep.receiver (t := (w, l)) (hselect _))

/-- `Receive` returns if the header is no digest. -/
theorem receive_refused (x : Extern) (cacheBase : Bytes) (w : σ) {l : TarLink} {err : Err}
    {h : TarStreamHeader} {ch : Chan TarStreamHeader 1} (hch : l.headerCh.recv = some (h, ch))
    (hdigest : validateContextDigest h.checksum = .error err) :
    TransferReach E ⟨receive x cacheBase, w, l⟩
      ⟨.ret (.error err, some err), w, { l with headerCh := ch }⟩ := by
  have hend : (fetchWith x cacheBase h).bind (walkFetched cacheBase) =
      .ret (.error err, some err) := by
    simp only [fetchWith, hdigest]
    rfl
  have hheader : HeaderSelected true true l (.header h) { l with headerCh := ch } := .header rfl hch
  have hselect : ∀ k : HeaderEvent → Recv (Except Err Bytes × Option Err),
      Step (Exec.join Prod.fst Prod.snd E tarExec) (.call (.inr (.selectHeader true true)) k)
        (w, l) (k (.header h)) (w, { l with headerCh := ch }) :=
    fun k => .call ⟨hheader, rfl⟩
  rw [← hend]
  apply Reach.head trivial (TransferStep.receiver Step.iter)
  exact Reach.single trivial
    (TransferStep.receiver (t := (w, { l with headerCh := ch })) (hselect _))

/-- The goroutine is never left at a send after `Receive` has returned, exactly if the
stream, up to the packet that ends it, is at most one header. -/
theorem producer_not_abandoned_iff (E : Exec FsSig σ) (x : Extern) (cacheBase : Bytes) (w : σ)
    (packets : List ClientStream) :
    (∀ s, TransferReach E ⟨receive x cacheBase, w, startLink packets⟩ s →
        (∃ a, s.receiver = .ret a) → s.link.demuxErr ≠ none → ¬ ProducerBlocked E s) ↔
      HeaderOnly false packets := by
  constructor
  · intro hnobody
    by_contra hnot
    let err : Err := .text (lit "context canceled")
    let cancelled : TarLink := { startLink packets with ctxErr := some err }
    have hcancel : TransferReach E ⟨receive x cacheBase, w, startLink packets⟩
        ⟨receive x cacheBase, w, cancelled⟩ := .single trivial (.cancel err)
    have hreturn := hcancel.trans (receive_cancelled x cacheBase w rfl)
    have hdemux := hreturn.tail trivial (.cancelDemux err)
    obtain ⟨s, hrun, hstuck, hdone⟩ := exists_stuck (E := E) packets false
      { cancelled with demuxErr := some err } rfl rfl rfl rfl (fun _ => rfl) (fun h => by cases h)
      hnot
    exact hnobody s (hdemux.trans hrun) hstuck.returned hdone hstuck.blocked
  · intro honly s hrun _ _
    have hstart : Roomy (startLink packets) := ⟨rfl, false, fun _ => rfl, honly⟩
    have hroomy : Roomy s.link :=
      hrun.invariant (I := fun t => Roomy t.link) hstart fun t e t' ht _ hstep => ht.step hstep
    exact hroomy.not_blocked

end

/-! ## A header that is refused -/

/-- A header that is no digest, and data. -/
def refusedPackets : List ClientStream :=
  [⟨[], some (.buildTransfer ⟨[], [], false, AList.singleton (lit "hash") (lit "x")⟩)⟩,
    ⟨[], some (.buildTransfer ⟨[], [1], false, ∅⟩)⟩]

/-- `Receive` has refused the header, and the goroutine is about to pass the data on. -/
def refusedState : Transfer Unit (Except Err Bytes × Option Err) where
  receiver := .ret (.error .invalidContextDigest, some .invalidContextDigest)
  world := ()
  link :=
    { startLink [] with
      producer := .sendData [1] false
      demuxErr := some (.text (lit "context canceled")) }

/-- Any library functions will do. -/
def someExtern : Extern :=
  ⟨fun _ => List.replicate 32 0, zeroHash_length, fun _ => ⟨[], none⟩⟩

/-- Whatever the file system does, and without its context being cancelled, `Receive` returns
and leaves the goroutine at the send of the data. -/
theorem producer_abandoned :
    TransferReach (fun _ _ _ _ => True) ⟨receive someExtern [], (), startLink refusedPackets⟩
        refusedState ∧
      refusedState.link.ctxErr = none ∧ refusedState.link.demuxErr ≠ none ∧
      ProducerBlocked (fun _ _ _ _ => True) refusedState := by
  refine ⟨?_, rfl, Option.some_ne_none _, Stuck.blocked ⟨⟨_, rfl⟩, trivial⟩⟩
  let received : TarLink :=
    { startLink refusedPackets with
      packets := refusedPackets.tail
      headerCh := ⟨[⟨lit "x", false⟩], by decide⟩ }
  let sending : TarLink :=
    { startLink refusedPackets with
      packets := refusedPackets.tail
      producer := .sendHeader ⟨lit "x", false⟩ }
  have hpoint : sending.producer = .sendHeader ⟨lit "x", false⟩ := rfl
  have hsent : StartTarStep sending received := StartTarStep.sendHeader hpoint rfl
  have hheader : TransferReach (fun _ _ _ _ => True)
      ⟨receive someExtern [], (), startLink refusedPackets⟩
      ⟨receive someExtern [], (), received⟩ :=
    .head trivial (.producer (.recv rfl rfl)) (.single trivial (.producer hsent))
  have hdigest : validateContextDigest (lit "x") = .error .invalidContextDigest := rfl
  have hreturn := hheader.trans (receive_refused someExtern [] () (l := received) rfl hdigest)
  have hdata := hreturn.tail trivial (.producer (.recv rfl rfl))
  exact hdata.tail trivial (.cancelDemux (.text (lit "context canceled")))

end BuilderShim.Fileutils
