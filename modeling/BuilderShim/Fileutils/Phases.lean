/-
  Fileutils/Phases.lean --- what is known of the link while the receiver waits.

  `goal` is the data still to come, or `none` for a stream that is to fail.  Before
  its last message the goroutine is `Sending`; then it is `Ending`, and the message
  is nil exactly if the stream was complete.  Each phase of the receiver is kept by
  the goroutine (`Feed`), and in each the receiver is answered or the goroutine can
  move.
-/
import BuilderShim.Fileutils.Delivery

set_option autoImplicit false

namespace BuilderShim.Fileutils

open BuilderShim.Foundation
open BuilderShim.Posix
open BuilderShim.Stream

/-! ## The points of the goroutine -/

/-- Nothing is on the error channel, and no channel is closed. -/
structure Quiet (l : TarLink) : Prop where
  err : l.errCh.items = []
  errOpen : l.errClosed = false
  headerOpen : l.headerClosed = false
  dataOpen : l.dataClosed = false

/-- The contexts: the demultiplexer of a stream that is complete does not end. -/
structure Calm (goal : Option Bytes) (l : TarLink) : Prop where
  ctx : l.ctxErr = none
  demux : goal.isNone = false → l.demuxErr = none

/-- There is data to come. -/
def Sending (goal : Option Bytes) (l : TarLink) : Prop :=
  Quiet l ∧
    match l.producer with
    | .recv => Chunks goal l.packets
    | .sendData data false => ∃ goal', goal = goal'.map (data ++ ·) ∧ Chunks goal' l.packets
    | .sendData data true => goal = some data
    | _ => False

/-- The deferred calls have closed what they come before. -/
def Closing (l : TarLink) : Prop :=
  match l.producer with
  | .closeData => l.dataClosed = false ∧ l.errClosed = false
  | .closeHeader => l.dataClosed = true ∧ l.errClosed = false
  | .closeErr => l.dataClosed = true ∧ l.errClosed = false
  | .returned => l.dataClosed = true ∧ l.errClosed = true
  | _ => False

/-- The last message is on its way or has been sent.  Only a nil one may have been received:
after an error nobody waits any more. -/
def Ending (complete : Bool) (l : TarLink) : Prop :=
  (∃ e, l.producer = .sendErr e false ∧ e.isNone = complete ∧ Quiet l) ∨
    (Closing l ∧ ((∃ e, l.errCh.items = [e] ∧ e.isNone = complete) ∨
      (complete = true ∧ l.errCh.items = [])))

/-- The data still to come is `goal`. -/
def Flowing (goal : Option Bytes) (l : TarLink) : Prop :=
  Calm goal l ∧ (Sending goal l ∨ (goal = none ∧ Ending false l))

/-- All the data has come. -/
def Finishing (l : TarLink) : Prop := Calm (some []) l ∧ Ending true l

/-- The header is yet to be sent. -/
def Heading (d : Bytes) (goal : Option Bytes) (l : TarLink) : Prop :=
  Calm goal l ∧ Quiet l ∧ l.headerCh.items = [] ∧
    ((l.producer = .recv ∧ Packets d goal l.packets) ∨
      (l.producer = .sendHeader ⟨d, false⟩ ∧ Chunks goal l.packets))

section

variable {goal : Option Bytes} {mayEnd : Bool} {l l' : TarLink} {d : Bytes}

/-! ## What the goroutine does -/

theorem Calm.step (h : Calm goal l) (hstep : Onward goal.isNone l l') : Calm goal l' := by
  cases hstep with
  | producer hstep =>
      cases hstep <;> exact ⟨h.ctx, h.demux⟩
  | ends e hend _ =>
      refine ⟨h.ctx, fun hsome => ?_⟩
      rw [hend] at hsome
      cases hsome

/-- After a packet with data, or one that ends the stream. -/
theorem Chunks.next {p : ClientStream} {rest : List ClientStream} (h : Chunks goal (p :: rest))
    {l : TarLink} (hq : Quiet l) (hp : l.producer = (tarPacket p).next) (hrest : l.packets = rest) :
    Sending goal l ∨ (goal = none ∧ Ending false l) := by
  cases h with
  | last h =>
      rw [h] at hp
      refine .inl ⟨hq, ?_⟩
      rw [hp]
      rfl
  | @more _ _ data goal' h hchunks =>
      rw [h] at hp
      refine .inl ⟨hq, ?_⟩
      rw [hp]
      exact ⟨goal', rfl, hrest ▸ hchunks⟩
  | error h =>
      rw [h] at hp
      exact .inr ⟨rfl, .inl ⟨_, hp, rfl, hq⟩⟩

theorem Sending.step (h : Sending goal l) (hc : Calm goal l) (hstep : Onward goal.isNone l l') :
    Sending goal l' ∨ (goal = none ∧ Ending false l') := by
  obtain ⟨hq, hpoint⟩ := h
  cases hstep with
  | ends e _ _ => exact .inl ⟨⟨hq.err, hq.errOpen, hq.headerOpen, hq.dataOpen⟩, hpoint⟩
  | producer hstep =>
      cases hstep with
      | recv hp hpackets =>
          rw [hp, hpackets] at hpoint
          exact hpoint.next ⟨hq.err, hq.errOpen, hq.headerOpen, hq.dataOpen⟩ rfl rfl
      | @recvDone e hp hdone =>
          -- only a stream that is to fail has a demultiplexer that ends
          cases goal with
          | some data =>
              rw [hc.demux rfl] at hdone
              cases hdone
          | none =>
              exact .inr ⟨rfl, .inl ⟨_, rfl, rfl, hq.err, hq.errOpen, hq.headerOpen, hq.dataOpen⟩⟩
      | sendHeader hp | sendErr hp | closeData hp | closeHeader hp | closeErr hp =>
          rw [hp] at hpoint
          exact hpoint.elim

theorem Ending.step {complete : Bool} (h : Ending complete l) (hstep : Onward mayEnd l l') :
    Ending complete l' := by
  rcases h with ⟨e, hp, he, hq⟩ | ⟨hclosing, hitems⟩
  · cases hstep with
    | ends _ _ _ => exact .inl ⟨e, hp, he, hq.err, hq.errOpen, hq.headerOpen, hq.dataOpen⟩
    | producer hstep =>
        cases hstep with
        | @sendErr e' again ch hp' hch =>
            rw [hp] at hp'
            obtain ⟨rfl, rfl⟩ := TarPoint.sendErr.inj hp'
            refine .inr ⟨⟨hq.dataOpen, hq.errOpen⟩, .inl ⟨e, ?_, he⟩⟩
            have hitems := Chan.items_of_send hch
            rw [hq.err] at hitems
            exact hitems
        | recv hp' | recvDone hp' | sendHeader hp' | closeData hp' | closeHeader hp'
        | closeErr hp' =>
            rw [hp] at hp'
            cases hp'
  · refine .inr ⟨?_, ?_⟩
    · unfold Closing at hclosing ⊢
      cases hstep with
      | ends _ _ _ => exact hclosing
      | producer hstep =>
          cases hstep with
          | closeData hp =>
              rw [hp] at hclosing
              exact ⟨rfl, hclosing.2⟩
          | closeHeader hp =>
              rw [hp] at hclosing
              exact hclosing
          | closeErr hp =>
              rw [hp] at hclosing
              exact ⟨hclosing.1, rfl⟩
          | recv hp | recvDone hp | sendHeader hp | sendErr hp =>
              rw [hp] at hclosing
              exact hclosing.elim
    · cases hstep with
      | ends _ _ _ => exact hitems
      | producer hstep =>
          cases hstep with
          | sendErr hp =>
              rw [Closing, hp] at hclosing
              exact hclosing.elim
          | recv _ | recvDone _ | sendHeader _ | closeData _ | closeHeader _ | closeErr _ =>
              exact hitems

theorem Sending.not_header (h : Sending goal l) (hdr : TarStreamHeader) :
    l.producer ≠ .sendHeader hdr := by
  intro hp
  have hpoint := h.2
  rw [hp] at hpoint
  exact hpoint

theorem Ending.not_header {complete : Bool} (h : Ending complete l) (hdr : TarStreamHeader) :
    l.producer ≠ .sendHeader hdr := by
  intro hp
  rcases h with ⟨_, hp', _⟩ | ⟨hclosing, _⟩
  · rw [hp] at hp'
    cases hp'
  · rw [Closing, hp] at hclosing
    exact hclosing

theorem Onward.headerCh_eq (h : Onward mayEnd l l')
    (hp : ∀ hdr, l.producer ≠ .sendHeader hdr) : l'.headerCh = l.headerCh := by
  cases h with
  | ends _ _ _ => rfl
  | producer h =>
      cases h with
      | sendHeader hp' => exact absurd hp' (hp _)
      | recv _ | recvDone _ | sendErr _ | closeData _ | closeHeader _ | closeErr _ => rfl

theorem Flowing.step (h : Flowing goal l) (hstep : Onward goal.isNone l l') :
    Flowing goal l' ∧ l'.headerCh = l.headerCh := by
  obtain ⟨hc, hsending | ⟨hnone, hending⟩⟩ := h
  · exact ⟨⟨hc.step hstep, hsending.step hc hstep⟩, hstep.headerCh_eq hsending.not_header⟩
  · exact ⟨⟨hc.step hstep, .inr ⟨hnone, hending.step hstep⟩⟩, hstep.headerCh_eq hending.not_header⟩

theorem Finishing.step (h : Finishing l) (hstep : Onward false l l') :
    Finishing l' ∧ l'.headerCh = l.headerCh :=
  ⟨⟨h.1.step hstep, h.2.step hstep⟩, hstep.headerCh_eq h.2.not_header⟩

theorem Heading.step (h : Heading d goal l) (hstep : Onward goal.isNone l l') :
    Heading d goal l' ∨ (l'.headerCh.items = [⟨d, false⟩] ∧ Flowing goal l') ∨
      (goal = none ∧ l'.headerCh.items = [] ∧ Calm goal l' ∧ Ending false l') := by
  have hc' := h.1.step hstep
  obtain ⟨hc, hq, hempty, hpoint⟩ := h
  cases hstep with
  | ends _ _ _ =>
      exact .inl ⟨hc', ⟨hq.err, hq.errOpen, hq.headerOpen, hq.dataOpen⟩, hempty, hpoint⟩
  | producer hstep =>
      rcases hpoint with ⟨hp, hpackets⟩ | ⟨hp, hchunks⟩
      · cases hstep with
        | @recv resp rest hp' hrest =>
            rw [hrest] at hpackets
            have hq' : Quiet { l with packets := rest, producer := (tarPacket resp).next } :=
              ⟨hq.err, hq.errOpen, hq.headerOpen, hq.dataOpen⟩
            cases hpackets with
            | header h hchunks =>
                refine .inl ⟨hc', hq', hempty, .inr ⟨?_, hchunks⟩⟩
                rw [h]
                rfl
            | @error _ _ msg h =>
                have hnext : (tarPacket resp).next =
                    .sendErr (some (.text (lit "server error in TAR mode: " ++ msg))) false := by
                  rw [h]
                  rfl
                exact .inr (.inr ⟨rfl, hempty, hc', .inl ⟨_, hnext, rfl, hq'⟩⟩)
        | @recvDone e hp' hdone =>
            cases goal with
            | some data =>
                rw [hc.demux rfl] at hdone
                cases hdone
            | none =>
                exact .inr (.inr ⟨rfl, hempty, hc',
                  .inl ⟨_, rfl, rfl, hq.err, hq.errOpen, hq.headerOpen, hq.dataOpen⟩⟩)
        | sendHeader hp' | sendErr hp' | closeData hp' | closeHeader hp' | closeErr hp' =>
            rw [hp] at hp'
            cases hp'
      · cases hstep with
        | @sendHeader hdr ch hp' hch =>
            rw [hp] at hp'
            obtain rfl := TarPoint.sendHeader.inj hp'
            have hitems := Chan.items_of_send hch
            rw [hempty] at hitems
            refine .inr (.inl ⟨hitems, hc',
              .inl ⟨⟨hq.err, hq.errOpen, hq.headerOpen, hq.dataOpen⟩, ?_⟩⟩)
            exact hchunks
        | recv hp' | recvDone hp' | sendErr hp' | closeData hp' | closeHeader hp'
        | closeErr hp' =>
            rw [hp] at hp'
            cases hp'

end

/-! ## The phases of the receiver -/

/-- Waiting for the header, on the channels that are not nil. -/
def Waiting (d : Bytes) (goal : Option Bytes) (header err : Bool) (l : TarLink) : Prop :=
  err = true ∧
    ((header = true ∧ Heading d goal l) ∨
      (header = true ∧ l.headerCh.items = [⟨d, false⟩] ∧ Flowing goal l) ∨
      (goal = none ∧ l.headerCh.items = [] ∧ Calm goal l ∧ Ending false l))

/-- The header has come. -/
def Headed (d : Bytes) (goal : Option Bytes) (h : TarStreamHeader) (l : TarLink) : Prop :=
  h = ⟨d, false⟩ ∧ l.headerCh.items = [] ∧ Flowing goal l

/-- `data` has come; if that is all, the error channel may be nil, but only once it has been
closed. -/
def Reading (d : Bytes) (goal : Option Bytes) (h : TarStreamHeader) (data : Bytes) (err : Bool)
    (l : TarLink) : Prop :=
  h = ⟨d, false⟩ ∧ l.headerCh.items = [] ∧ ∃ goal', goal = goal'.map (data ++ ·) ∧
    ((err = true ∧ Flowing goal' l) ∨
      (goal' = some [] ∧ Finishing l ∧ (err = false → l.dataClosed = true)))

/-- The data channel is closed. -/
def Closed (goal : Option Bytes) (data : Bytes) (err : Bool) (l : TarLink) : Prop :=
  l.dataClosed = true ∧
    ((goal = some data ∧ Ending true l) ∨ (goal = none ∧ err = true ∧ Ending false l))

section

variable {goal : Option Bytes} {mayEnd : Bool} {l l' : TarLink} {d data : Bytes}
variable {header err : Bool} {h : TarStreamHeader}

theorem waiting_stable (header err : Bool) :
    Stable (Onward goal.isNone) (Waiting d goal header err) := by
  rintro l l' hstep ⟨herr, ⟨hheader, hheading⟩ | ⟨hheader, hitems, hflow⟩ |
    ⟨hnone, hitems, hc, hend⟩⟩
  · refine ⟨herr, ?_⟩
    rcases hheading.step hstep with hheading | ⟨hitems, hflow⟩ | hfailing
    · exact .inl ⟨hheader, hheading⟩
    · exact .inr (.inl ⟨hheader, hitems, hflow⟩)
    · exact .inr (.inr hfailing)
  · obtain ⟨hflow', hch⟩ := hflow.step hstep
    exact ⟨herr, .inr (.inl ⟨hheader, hch ▸ hitems, hflow'⟩)⟩
  · have hch := hstep.headerCh_eq hend.not_header
    exact ⟨herr, .inr (.inr ⟨hnone, hch ▸ hitems, hc.step hstep, hend.step hstep⟩)⟩

theorem headed_stable (h : TarStreamHeader) : Stable (Onward goal.isNone) (Headed d goal h) := by
  rintro l l' hstep ⟨hh, hitems, hflow⟩
  obtain ⟨hflow', hch⟩ := hflow.step hstep
  exact ⟨hh, hch ▸ hitems, hflow'⟩

theorem Onward.dataClosed (h : Onward mayEnd l l') (hd : l.dataClosed = true) :
    l'.dataClosed = true := by
  cases h with
  | ends _ _ _ => exact hd
  | producer h =>
      cases h with
      | closeData _ => rfl
      | recv _ | recvDone _ | sendHeader _ | sendErr _ | closeHeader _ | closeErr _ => exact hd

theorem reading_stable (h : TarStreamHeader) (data : Bytes) (err : Bool) :
    Stable (Onward goal.isNone) (Reading d goal h data err) := by
  rintro l l' hstep ⟨hh, hitems, goal', rfl, ⟨herr, hflow⟩ | ⟨rfl, hfinish, hclosed⟩⟩
  · rw [Option.isNone_map] at hstep
    obtain ⟨hflow', hch⟩ := hflow.step hstep
    exact ⟨hh, hch ▸ hitems, goal', rfl, .inl ⟨herr, hflow'⟩⟩
  · obtain ⟨hfinish', hch⟩ := hfinish.step hstep
    exact ⟨hh, hch ▸ hitems, _, rfl, .inr ⟨rfl, hfinish', fun he => hstep.dataClosed (hclosed he)⟩⟩

theorem closed_stable (data : Bytes) (err : Bool) :
    Stable (Onward goal.isNone) (Closed goal data err) := by
  rintro l l' hstep ⟨hclosed, ⟨hgoal, hend⟩ | ⟨hgoal, herr, hend⟩⟩
  · exact ⟨hstep.dataClosed hclosed, .inl ⟨hgoal, hend.step hstep⟩⟩
  · exact ⟨hstep.dataClosed hclosed, .inr ⟨hgoal, herr, hend.step hstep⟩⟩

/-! ## The answers -/

theorem Ending.err_eq {complete : Bool} (h : Ending complete l) {e : Option Err}
    {ch : Chan (Option Err) 1} (hch : l.errCh.recv = some (e, ch)) :
    Closing l ∧ e.isNone = complete ∧ ch.items = [] := by
  have hitems := Chan.items_of_recv hch
  rcases h with ⟨_, _, _, hq⟩ | ⟨hclosing, ⟨e', heq, he'⟩ | ⟨_, heq⟩⟩
  · rw [hq.err] at hitems
    cases hitems
  · rw [heq] at hitems
    obtain ⟨rfl, hrest⟩ := List.cons.inj hitems
    exact ⟨hclosing, he', hrest.symm⟩
  · rw [heq] at hitems
    cases hitems

/-- Nothing but the end of a failing stream is on the error channel before the last data. -/
theorem Flowing.err_eq (h : Flowing goal l) {e : Option Err} {ch : Chan (Option Err) 1}
    (hch : l.errCh.recv = some (e, ch)) : goal = none ∧ ∃ err, e = some err := by
  obtain ⟨_, ⟨hq, _⟩ | ⟨hnone, hend⟩⟩ := h
  · have hitems := Chan.items_of_recv hch
    rw [hq.err] at hitems
    cases hitems
  · refine ⟨hnone, ?_⟩
    have he := (hend.err_eq hch).2.1
    cases e with
    | none => cases he
    | some err => exact ⟨err, rfl⟩

theorem Flowing.not_errClosed (h : Flowing goal l) (hitems : l.errCh.items = []) :
    l.errClosed = false := by
  obtain ⟨_, ⟨hq, _⟩ | ⟨_, hend⟩⟩ := h
  · exact hq.errOpen
  · rcases hend with ⟨_, _, _, hq⟩ | ⟨_, ⟨_, heq, _⟩ | ⟨hfalse, _⟩⟩
    · exact hq.errOpen
    · rw [heq] at hitems
      cases hitems
    · cases hfalse

theorem Flowing.dataClosed (h : Flowing goal l) (hclosed : l.dataClosed = true) :
    goal = none ∧ Ending false l := by
  obtain ⟨_, ⟨hq, _⟩ | hend⟩ := h
  · rw [hq.dataOpen] at hclosed
    cases hclosed
  · exact hend

/-- The receiver takes the header. -/
theorem Flowing.headed (h : Flowing goal l) (ch : Chan TarStreamHeader 1) :
    Flowing goal { l with headerCh := ch } := by
  have hquiet : Quiet l → Quiet { l with headerCh := ch } := fun hq =>
    ⟨hq.err, hq.errOpen, hq.headerOpen, hq.dataOpen⟩
  obtain ⟨hc, ⟨hq, hpoint⟩ | ⟨hnone, ⟨e, hp, he, hq⟩ | hend⟩⟩ := h
  · exact ⟨⟨hc.ctx, hc.demux⟩, .inl ⟨hquiet hq, hpoint⟩⟩
  · exact ⟨⟨hc.ctx, hc.demux⟩, .inr ⟨hnone, .inl ⟨e, hp, he, hquiet hq⟩⟩⟩
  · exact ⟨⟨hc.ctx, hc.demux⟩, .inr ⟨hnone, .inr hend⟩⟩

/-- The receiver takes data. -/
theorem Flowing.taken (h : Flowing goal l) {complete : Bool}
    (hp : l.producer = .sendData data complete) :
    ∃ goal', goal = goal'.map (data ++ ·) ∧
      (Flowing goal' { l with producer := .afterSend complete } ∨
        (goal' = some [] ∧ Finishing { l with producer := .afterSend complete })) := by
  obtain ⟨hc, ⟨hq, hpoint⟩ | ⟨_, ⟨_, hp', _⟩ | ⟨hclosing, _⟩⟩⟩ := h
  · rw [hp] at hpoint
    have hq' : Quiet { l with producer := .afterSend complete } :=
      ⟨hq.err, hq.errOpen, hq.headerOpen, hq.dataOpen⟩
    cases complete with
    | false =>
        obtain ⟨goal', rfl, hchunks⟩ := hpoint
        refine ⟨goal', rfl, .inl ⟨⟨hc.ctx, fun hsome => hc.demux ?_⟩, .inl ⟨hq', hchunks⟩⟩⟩
        rw [Option.isNone_map]
        exact hsome
    | true =>
        obtain rfl : goal = some data := hpoint
        refine ⟨some [], by simp, .inr ⟨rfl, ⟨hc.ctx, fun _ => hc.demux rfl⟩, ?_⟩⟩
        exact .inl ⟨none, rfl, rfl, hq'⟩
  · rw [hp] at hp'
    cases hp'
  · rw [Closing, hp] at hclosing
    exact hclosing.elim

theorem Waiting.select {r : HeaderEvent} (hw : Waiting d goal header err l)
    (hs : HeaderSelected header err l r l') :
    HeaderEvent.Leads (Headed d goal) (Waiting d goal) (goal = none) header err r l' := by
  obtain ⟨rfl, ⟨rfl, hc, hq, hempty, _⟩ | ⟨rfl, hitems, hflow⟩ | ⟨hnone, hempty, hc, hend⟩⟩ := hw
  · -- nothing has been sent yet
    cases hs with
    | header _ hch =>
        have := Chan.items_of_recv hch
        rw [hempty] at this
        cases this
    | headerClosed _ _ hclosed =>
        rw [hq.headerOpen] at hclosed
        cases hclosed
    | err _ hch =>
        have := Chan.items_of_recv hch
        rw [hq.err] at this
        cases this
    | errClosed _ _ hclosed =>
        rw [hq.errOpen] at hclosed
        cases hclosed
    | done hdone =>
        rw [hc.ctx] at hdone
        cases hdone
  · -- the header is there to be received
    cases hs with
    | @header hdr ch _ hch =>
        have hcons := Chan.items_of_recv hch
        rw [hitems] at hcons
        obtain ⟨rfl, hrest⟩ := List.cons.inj hcons
        exact ⟨rfl, hrest.symm, hflow.headed ch⟩
    | headerClosed _ hch _ =>
        rw [hitems] at hch
        cases hch
    | err _ hch =>
        obtain ⟨hnone, _, rfl⟩ := hflow.err_eq hch
        exact hnone
    | errClosed _ hch hclosed =>
        rw [hflow.not_errClosed hch] at hclosed
        cases hclosed
    | done hdone =>
        rw [hflow.1.ctx] at hdone
        cases hdone
  · -- there will be no header
    have hflow : Flowing goal l := ⟨hc, .inr ⟨hnone, hend⟩⟩
    cases hs with
    | header _ hch =>
        have := Chan.items_of_recv hch
        rw [hempty] at this
        cases this
    | headerClosed _ _ _ => exact ⟨rfl, .inr (.inr ⟨hnone, hempty, hc, hend⟩)⟩
    | err _ hch =>
        obtain ⟨_, _, rfl⟩ := hflow.err_eq hch
        exact hnone
    | errClosed _ hch hclosed =>
        rw [hflow.not_errClosed hch] at hclosed
        cases hclosed
    | done hdone =>
        rw [hc.ctx] at hdone
        cases hdone

theorem Headed.select {r : DataEvent} (hh : Headed d goal h l) (hs : DataSelected true l r l') :
    DataEvent.Leads (fun data => Reading d goal h data true)
      (fun l => goal = none ∧ Closed none [] true l)
      (Reading d goal h [] true) (Reading d goal h [] true) (goal = none) r l' := by
  obtain ⟨rfl, hitems, hflow⟩ := hh
  cases hs with
  | data hp =>
      obtain ⟨goal', hgoal, hflow | ⟨hnil, hfinish⟩⟩ := hflow.taken hp
      · exact ⟨rfl, hitems, goal', hgoal, .inl ⟨rfl, hflow⟩⟩
      · exact ⟨rfl, hitems, goal', hgoal, .inr ⟨hnil, hfinish, fun he => by cases he⟩⟩
  | dataClosed hclosed =>
      obtain ⟨hnone, hend⟩ := hflow.dataClosed hclosed
      exact ⟨hnone, hclosed, .inr ⟨rfl, rfl, hend⟩⟩
  | err _ hch =>
      obtain ⟨hnone, _, rfl⟩ := hflow.err_eq hch
      exact hnone
  | errClosed _ hch hclosed =>
      rw [hflow.not_errClosed hch] at hclosed
      cases hclosed
  | done hdone =>
      rw [hflow.1.ctx] at hdone
      cases hdone

theorem map_append_append (goal : Option Bytes) (a b : Bytes) :
    (goal.map (b ++ ·)).map (a ++ ·) = goal.map ((a ++ b) ++ ·) := by
  cases goal with
  | none => rfl
  | some data => exact congrArg some (List.append_assoc a b data).symm

theorem Reading.select {r : DataEvent} (hr : Reading d goal h data err l)
    (hs : DataSelected err l r l') :
    DataEvent.Leads (fun more => Reading d goal h (data ++ more) err) (Closed goal data err)
      (Reading d goal h data err) (Reading d goal h data false) (goal = none) r l' := by
  obtain ⟨rfl, hitems, goal', rfl, ⟨rfl, hflow⟩ | ⟨rfl, hfinish, hclosed⟩⟩ := hr
  · cases hs with
    | data hp =>
        obtain ⟨goal'', rfl, hflow | ⟨hnil, hfinish⟩⟩ := hflow.taken hp
        · exact ⟨rfl, hitems, goal'', map_append_append _ _ _, .inl ⟨rfl, hflow⟩⟩
        · exact ⟨rfl, hitems, goal'', map_append_append _ _ _,
            .inr ⟨hnil, hfinish, fun he => by cases he⟩⟩
    | dataClosed hclosed =>
        obtain ⟨rfl, hend⟩ := hflow.dataClosed hclosed
        exact ⟨hclosed, .inr ⟨rfl, rfl, hend⟩⟩
    | err _ hch =>
        obtain ⟨rfl, _, rfl⟩ := hflow.err_eq hch
        rfl
    | errClosed _ hch hclosed =>
        rw [hflow.not_errClosed hch] at hclosed
        cases hclosed
    | done hdone =>
        rw [hflow.1.ctx] at hdone
        cases hdone
  · have hgoal : (some []).map (data ++ ·) = some data := congrArg some (List.append_nil data)
    obtain ⟨hc, hend⟩ := hfinish
    cases hs with
    | data hp =>
        rcases hend with ⟨_, hp', _⟩ | ⟨hclosing, _⟩
        · rw [hp] at hp'
          cases hp'
        · rw [Closing, hp] at hclosing
          exact hclosing.elim
    | dataClosed hclosed => exact ⟨hclosed, .inl ⟨hgoal, hend⟩⟩
    | @err e ch _ hch =>
        obtain ⟨hclosing, he, hrest⟩ := hend.err_eq hch
        obtain rfl := Option.isNone_iff_eq_none.mp he
        exact ⟨rfl, hitems, _, rfl,
          .inr ⟨rfl, ⟨⟨hc.ctx, hc.demux⟩, .inr ⟨hclosing, .inr ⟨rfl, hrest⟩⟩⟩, hclosed⟩⟩
    | errClosed _ hch herrClosed =>
        refine ⟨rfl, hitems, _, rfl, .inr ⟨rfl, ⟨hc, hend⟩, fun _ => ?_⟩⟩
        rcases hend with ⟨_, _, _, hq⟩ | ⟨hclosing, _⟩
        · rw [hq.errOpen] at herrClosed
          cases herrClosed
        · unfold Closing at hclosing
          split at hclosing
          · rw [hclosing.2] at herrClosed
            cases herrClosed
          · exact hclosing.1
          · exact hclosing.1
          · exact hclosing.1
          · exact hclosing.elim
    | done hdone =>
        rw [hc.ctx] at hdone
        cases hdone

theorem Closed.err_eq (hcl : Closed none data err l) :
    err = true ∧ ∃ e, l.errCh.items = [some e] := by
  obtain ⟨hclosed, ⟨hgoal, _⟩ | ⟨_, herr, ⟨_, _, _, hq⟩ | ⟨_, ⟨e, heq, he⟩ | ⟨hfalse, _⟩⟩⟩⟩ := hcl
  · cases hgoal
  · rw [hq.dataOpen] at hclosed
    cases hclosed
  · cases e with
    | none => cases he
    | some e => exact ⟨herr, e, heq⟩
  · cases hfalse

theorem Closed.poll {e : Option Err} (hcl : Closed goal data err l) (hs : ErrPolled err l e l') :
    (e = none → goal = some data) ∧ ∀ er, e = some er → goal = none := by
  cases goal with
  | none =>
      obtain ⟨rfl, e', heq⟩ := hcl.err_eq
      refine ⟨fun he => ?_, fun _ _ => rfl⟩
      subst he
      cases hs with
      | err _ hrecv =>
          cases hrecv with
          | err hch =>
              have := Chan.items_of_recv hch
              rw [heq] at this
              cases this
          | closed hch _ =>
              rw [heq] at hch
              cases hch
      | empty hnone =>
          rw [(hnone rfl).1] at heq
          cases heq
  | some data' =>
      obtain ⟨_, ⟨hgoal, hend⟩ | ⟨hgoal, _⟩⟩ := hcl
      · refine ⟨fun _ => hgoal, fun er he => ?_⟩
        subst he
        cases hs with
        | err _ hrecv =>
            cases hrecv with
            | err hch => cases (hend.err_eq hch).2.1
      · cases hgoal

/-! ## Nobody waits for ever -/

/-- A goroutine that waits for a packet gets one, or the stream ends. -/
theorem onward_of_recv (hp : l.producer = .recv) (h : l.packets = [] → goal = none) :
    ∃ l', Onward goal.isNone l l' := by
  cases hpackets : l.packets with
  | cons p rest => exact ⟨_, .producer (.recv hp hpackets)⟩
  | nil =>
      obtain rfl := h hpackets
      cases hdemux : l.demuxErr with
      | none => exact ⟨_, .ends .eof rfl hdemux⟩
      | some e => exact ⟨_, .producer (.recvDone hp hdemux)⟩

theorem onward_of_sendErr {e : Option Err} {again : Bool} (hp : l.producer = .sendErr e again)
    (hq : Quiet l) : ∃ l', Onward mayEnd l l' := by
  have hroom : l.errCh.items.length < 1 := by
    rw [hq.err]
    exact Nat.one_pos
  obtain ⟨ch, hch⟩ := Chan.exists_send hroom e
  exact ⟨_, .producer (.sendErr hp hch)⟩

theorem Chunks.ne_nil {packets : List ClientStream} (h : Chunks goal packets)
    (hnil : packets = []) : goal = none := by
  subst hnil
  cases h
  rfl

theorem Packets.ne_nil {packets : List ClientStream} (h : Packets d goal packets)
    (hnil : packets = []) : goal = none := by
  subst hnil
  cases h
  rfl

theorem Heading.live (h : Heading d goal l) : ∃ l', Onward goal.isNone l l' := by
  obtain ⟨_, _, hempty, ⟨hp, hpackets⟩ | ⟨hp, _⟩⟩ := h
  · exact onward_of_recv hp hpackets.ne_nil
  · have hroom : l.headerCh.items.length < 1 := by
      rw [hempty]
      exact Nat.one_pos
    obtain ⟨ch, hch⟩ := Chan.exists_send hroom ⟨d, false⟩
    exact ⟨_, .producer (.sendHeader hp hch)⟩

/-- An error that is on its way can be sent or received. -/
theorem Ending.live (h : Ending false l) :
    (∃ l', Onward mayEnd l l') ∨ ∃ e ch, l.errCh.recv = some (e, ch) := by
  rcases h with ⟨e, hp, _, hq⟩ | ⟨_, ⟨e, heq, _⟩ | ⟨hfalse, _⟩⟩
  · exact .inl (onward_of_sendErr hp hq)
  · exact .inr ⟨e, Chan.exists_recv heq⟩
  · cases hfalse

theorem Waiting.live (h : Waiting d goal header err l) :
    (∃ r l', HeaderSelected header err l r l') ∨ ∃ l', Onward goal.isNone l l' := by
  obtain ⟨rfl, ⟨_, hheading⟩ | ⟨rfl, hitems, _⟩ | ⟨_, _, _, hend⟩⟩ := h
  · exact .inr hheading.live
  · obtain ⟨ch, hch⟩ := Chan.exists_recv hitems
    exact .inl ⟨_, _, .header rfl hch⟩
  · rcases hend.live with hlive | ⟨e, ch, hch⟩
    · exact .inr hlive
    · exact .inl ⟨_, _, .err rfl hch⟩

theorem Flowing.live (h : Flowing goal l) :
    (∃ r l', DataSelected true l r l') ∨ ∃ l', Onward goal.isNone l l' := by
  obtain ⟨_, ⟨_, hpoint⟩ | ⟨_, hend⟩⟩ := h
  · cases hp : l.producer with
    | recv =>
        rw [hp] at hpoint
        exact .inr (onward_of_recv hp hpoint.ne_nil)
    | sendData data complete => exact .inl ⟨_, _, .data hp⟩
    | sendHeader _ | sendErr _ _ | closeData | closeHeader | closeErr | returned =>
        rw [hp] at hpoint
        exact hpoint.elim
  · rcases hend.live with hlive | ⟨e, ch, hch⟩
    · exact .inr hlive
    · exact .inl ⟨_, _, .err rfl hch⟩

/-- Once all the data has come the data channel is closed before long. -/
theorem Finishing.live (h : Finishing l) :
    (∃ r l', DataSelected err l r l') ∨ ∃ l', Onward false l l' := by
  obtain ⟨_, ⟨_, hp, _, hq⟩ | ⟨hclosing, _⟩⟩ := h
  · exact .inr (onward_of_sendErr hp hq)
  · unfold Closing at hclosing
    split at hclosing
    · rename_i hp
      exact .inr ⟨_, .producer (.closeData hp)⟩
    · exact .inl ⟨_, _, .dataClosed hclosing.1⟩
    · exact .inl ⟨_, _, .dataClosed hclosing.1⟩
    · exact .inl ⟨_, _, .dataClosed hclosing.1⟩
    · exact hclosing.elim

theorem Reading.live (hr : Reading d goal h data err l) :
    (∃ r l', DataSelected err l r l') ∨ ∃ l', Onward goal.isNone l l' := by
  obtain ⟨_, _, goal', rfl, ⟨rfl, hflow⟩ | ⟨rfl, hfinish, _⟩⟩ := hr
  · rw [Option.isNone_map]
    exact hflow.live
  · exact hfinish.live

/-- The poll never waits. -/
theorem ErrPolled.live (err : Bool) (l : TarLink) : ∃ e l', ErrPolled err l e l' := by
  cases hitems : l.errCh.items with
  | nil =>
      by_cases hclosed : err = true ∧ l.errClosed = true
      · exact ⟨_, _, .err hclosed.1 (.closed hitems hclosed.2)⟩
      · refine ⟨_, _, .empty fun herr => ⟨hitems, ?_⟩⟩
        exact Bool.eq_false_iff.mpr fun hc => hclosed ⟨herr, hc⟩
  | cons e rest =>
      obtain ⟨ch, hch⟩ := Chan.exists_recv hitems
      cases err with
      | true => exact ⟨_, _, .err rfl (.err hch)⟩
      | false => exact ⟨_, _, .empty fun herr => (by cases herr)⟩

/-! ## What the receiver relies on -/

def tarHost (fn : List WalkEntry → WalkEntry → Verdict) (mayEnd : Bool) :
    Host (World × TarLink) TarLink where
  world := Prod.fst
  link := Prod.snd
  exec := fnExec fn
  env := Onward mayEnd

def tarFeed (fn : List WalkEntry → WalkEntry → Verdict) (d : Bytes) (goal : Option Bytes) :
    Feed (tarHost fn goal.isNone) where
  wait := Waiting d goal
  first := Headed d goal
  more := Reading d goal
  last _ := Closed goal
  sent h := h = ⟨d, false⟩
  whole _ data := goal = some data
  fails := goal = none
  wait_stable := waiting_stable
  first_stable := headed_stable
  more_stable := reading_stable
  last_stable _ := closed_stable
  wait_end l h := by cases h.1
  wait_select _ _ _ _ _ hw hs := hw.select hs
  first_sent _ _ h := h.1
  first_select _ _ r _ hh hs := by
    have hleads := hh.select hs
    cases r with
    | dataClosed => exact hleads.1
    | data _ | errClosed | done _ => exact hleads
    | err e =>
        cases e with
        | none | some _ => exact hleads
  more_select _ _ _ _ _ _ hr hs := hr.select hs
  last_poll _ _ _ _ _ hcl := ⟨fun hs => (hcl.poll hs).1 rfl, fun _ hs => (hcl.poll hs).2 _ rfl⟩

end

end BuilderShim.Fileutils
