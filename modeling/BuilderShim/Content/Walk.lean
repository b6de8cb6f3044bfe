/-
  Content/Walk.lean --- `ContentStoreProxy.Walk` (pkg/content/walk.go).

  A goroutine receives the responses of the host, turns each into an `Info` and
  puts it on a buffered channel; when the last one is on it, it reports the end on
  another channel, which is not buffered.  The consumer takes from either, and
  `select` does not prefer the one with the entries.

  How a response is turned into an `Info` is a parameter.
-/
import BuilderShim.Content.Info
import BuilderShim.Foundation.Chan
import BuilderShim.Foundation.Machine

set_option autoImplicit false

namespace BuilderShim.Content

open BuilderShim.Foundation
open BuilderShim.Stream

inductive WalkError where
  /-- the error of the context -/
  | ctx
  /-- the host answered with an error -/
  | host (msg : Bytes)
  /-- `TransformIntoContentInfo` failed -/
  | transform (code : Nat)
  /-- the callback failed -/
  | fn (code : Nat)
  deriving DecidableEq

section

variable {Info : Type} (transform : InfoTransfer → Except WalkError Info)

/-- The goroutine. -/
inductive Producer (Info : Type) where
  /-- `processor.Recv()` -/
  | recv
  /-- `infoCh <- info` -/
  | send (info : Info) (complete : Bool)
  /-- `errCh <- err` -/
  | report (err : Option WalkError)
  | returned

/-- The loop of `Walk`. -/
inductive Consumer (Info : Type) where
  | select
  /-- `fn(*info)` -/
  | call (info : Info)
  | returned (err : Option WalkError)

structure WalkState (Info : Type) where
  /-- the responses that the host has still to deliver -/
  host : List InfoTransfer
  /-- the channel of the demultiplexer -/
  ch : Chan InfoTransfer 32
  /-- the context is done -/
  cancelled : Bool
  producer : Producer Info
  infoCh : Chan Info 32
  consumer : Consumer Info
  /-- what the callback has been called with -/
  called : List Info

def startWalk (responses : List InfoTransfer) : WalkState Info :=
  ⟨responses, .empty, false, .recv, .empty, .select, []⟩

/-- After a response was received. -/
def Producer.next (resp : InfoTransfer) : Producer Info :=
  match resp.metadata.lookup (lit "error") with
  | some msg => .report (some (.host msg))
  | none =>
      match transform resp with
      | .error e => .report (some e)
      | .ok info => .send info resp.complete

inductive WalkEvent where
  | accept
  | recv
  | recvDone
  | send
  | takeInfo
  | called
  | callFailed
  | takeErr
  | cancel
  deriving DecidableEq

inductive WalkStep : WalkState Info → WalkEvent → WalkState Info → Prop
  /-- `Demultiplexer.Accept` of the next response -/
  | accept {s : WalkState Info} {resp : InfoTransfer} {rest : List InfoTransfer}
      {ch : Chan InfoTransfer 32} (hhost : s.host = resp :: rest) (hch : s.ch.send resp = some ch) :
      WalkStep s .accept { s with host := rest, ch := ch }
  | recv {s : WalkState Info} {resp : InfoTransfer} {ch : Chan InfoTransfer 32}
      (hp : s.producer = .recv) (hch : s.ch.recv = some (resp, ch)) :
      WalkStep s .recv { s with ch := ch, producer := .next transform resp }
  | recvDone {s : WalkState Info} (hp : s.producer = .recv) (hc : s.cancelled = true) :
      WalkStep s .recvDone { s with producer := .report (some .ctx) }
  | send {s : WalkState Info} {info : Info} {complete : Bool} {infoCh : Chan Info 32}
      (hp : s.producer = .send info complete) (hch : s.infoCh.send info = some infoCh) :
      WalkStep s .send
        { s with
          infoCh := infoCh
          producer := if complete = true then .report none else .recv }
  | takeInfo {s : WalkState Info} {info : Info} {infoCh : Chan Info 32}
      (hc : s.consumer = .select) (hch : s.infoCh.recv = some (info, infoCh)) :
      WalkStep s .takeInfo { s with infoCh := infoCh, consumer := .call info }
  | called {s : WalkState Info} {info : Info} (hc : s.consumer = .call info) :
      WalkStep s .called { s with consumer := .select, called := s.called ++ [info] }
  | callFailed {s : WalkState Info} {info : Info} (code : Nat) (hc : s.consumer = .call info) :
      WalkStep s .callFailed
        { s with
          consumer := .returned (some (.fn code))
          called := s.called ++ [info]
          cancelled := true }
  | takeErr {s : WalkState Info} {err : Option WalkError} (hc : s.consumer = .select)
      (hp : s.producer = .report err) :
      WalkStep s .takeErr
        { s with producer := .returned, consumer := .returned err, cancelled := true }
  /-- the context of the caller is cancelled -/
  | cancel {s : WalkState Info} : WalkStep s .cancel { s with cancelled := true }

/-! ## What is on its way -/

/-- The responses of a walk that the host answers: none is an error, each can be turned into
an `Info`, and the last one, and only that, is marked complete. -/
inductive Responses : List InfoTransfer → List Info → Prop
  | last {resp : InfoTransfer} {info : Info} (hclean : resp.metadata.lookup (lit "error") = none)
      (hinfo : transform resp = .ok info) (hcomplete : resp.complete = true) :
      Responses [resp] [info]
  | cons {resp : InfoTransfer} {info : Info} {resps : List InfoTransfer} {infos : List Info}
      (hclean : resp.metadata.lookup (lit "error") = none) (hinfo : transform resp = .ok info)
      (hcomplete : resp.complete = false) (hrest : Responses resps infos) :
      Responses (resp :: resps) (info :: infos)

/-- What the consumer has taken and not yet called the callback with. -/
def Consumer.held : Consumer Info → List Info
  | .call info => [info]
  | _ => []

/-- What has got as far as the channel of the consumer, or further. -/
def WalkState.delivered (s : WalkState Info) : List Info :=
  s.called ++ s.consumer.held ++ s.infoCh.items

/-- What has been delivered, then what the goroutine holds, then what it has not received yet,
is everything. -/
def Accounted (infos : List Info) (s : WalkState Info) : Prop :=
  match s.producer with
  | .recv =>
      ∃ left, Responses transform (s.ch.items ++ s.host) left ∧ s.delivered ++ left = infos
  | .send info false =>
      ∃ left, Responses transform (s.ch.items ++ s.host) left ∧ s.delivered ++ info :: left = infos
  | .send info true => s.delivered ++ [info] = infos
  | .report none => s.delivered = infos
  | .report (some _) => True
  | .returned => True

variable {transform} {infos : List Info} {s s' : WalkState Info} {e : WalkEvent}

/-- A step that leaves the goroutine and what is on its way to it. -/
theorem Accounted.of_delivered (h : Accounted transform infos s) (hp : s'.producer = s.producer)
    (hleft : s'.ch.items ++ s'.host = s.ch.items ++ s.host) (hd : s'.delivered = s.delivered) :
    Accounted transform infos s' := by
  rw [Accounted, hp, hleft, hd]
  exact h

/-- What a response becomes, if the ones from it on are answered. -/
theorem Responses.next {resp : InfoTransfer} {resps : List InfoTransfer} {left : List Info}
    (h : Responses transform (resp :: resps) left) :
    ∃ info, (resp.complete = true ∧ left = [info] ∧
        Producer.next transform resp = .send info true) ∨
      (resp.complete = false ∧ Producer.next transform resp = .send info false ∧
        ∃ left', left = info :: left' ∧ Responses transform resps left') := by
  cases h with
  | last hclean hinfo hcomplete =>
      refine ⟨_, .inl ⟨hcomplete, rfl, ?_⟩⟩
      simp only [Producer.next, hclean, hinfo, hcomplete]
  | cons hclean hinfo hcomplete hrest =>
      refine ⟨_, .inr ⟨hcomplete, ?_, _, rfl, hrest⟩⟩
      simp only [Producer.next, hclean, hinfo, hcomplete]

theorem Accounted.step (h : Accounted transform infos s) (hstep : WalkStep transform s e s')
    (hfn : e ≠ .callFailed) : Accounted transform infos s' := by
  cases hstep with
  | accept hhost hch =>
      refine h.of_delivered rfl ?_ rfl
      rw [Chan.items_of_send hch, hhost, List.append_assoc]
      rfl
  | @recv resp ch hp hch =>
      rw [Accounted, hp] at h
      obtain ⟨left, hleft, hall⟩ := h
      rw [Chan.items_of_recv hch, List.cons_append] at hleft
      obtain ⟨info, ⟨-, rfl, hnext⟩ | ⟨-, hnext, left', rfl, hrest⟩⟩ := hleft.next
      · rw [Accounted, hnext]
        exact hall
      · rw [Accounted, hnext]
        exact ⟨left', hrest, hall⟩
  | recvDone hp hc => trivial
  | @send info complete infoCh hp hch =>
      rw [Accounted, hp] at h
      have hd : s.called ++ s.consumer.held ++ infoCh.items = s.delivered ++ [info] := by
        rw [Chan.items_of_send hch, WalkState.delivered, ← List.append_assoc]
      cases complete with
      | true => exact hd.trans h
      | false =>
          obtain ⟨left, hleft, hall⟩ := h
          refine ⟨left, hleft, ?_⟩
          rw [← hall, WalkState.delivered, hd, List.append_assoc]
          rfl
  | @takeInfo info infoCh hc hch =>
      refine h.of_delivered rfl rfl ?_
      simp only [WalkState.delivered, hc, Consumer.held, Chan.items_of_recv hch,
        List.append_assoc, List.nil_append, List.cons_append]
  | @called info hc =>
      refine h.of_delivered rfl rfl ?_
      simp only [WalkState.delivered, hc, Consumer.held, List.append_nil]
  | callFailed code hc => exact absurd rfl hfn
  | takeErr hc hp => trivial
  | cancel => exact h.of_delivered rfl rfl rfl

theorem accounted_start {resps : List InfoTransfer} (h : Responses transform resps infos) :
    Accounted transform infos (startWalk resps) :=
  ⟨infos, h, rfl⟩

/-! ## Whether an entry is lost -/

variable (transform)

/-- The runs in which the callback does not fail. -/
abbrev WalkReach (s s' : WalkState Info) : Prop :=
  Reach (WalkStep transform) (fun _ e => e ≠ .callFailed) s s'

/-- The runs in which, moreover, the end is not taken before the entries. -/
abbrev PatientReach (s s' : WalkState Info) : Prop :=
  Reach (WalkStep transform)
    (fun s e => e ≠ .callFailed ∧ (e = .takeErr → s.infoCh.items = [])) s s'

variable {transform}

/-- With nothing left on the channel when the end is taken, the callback was called with
everything; otherwise it was not. -/
theorem Accounted.takeErr (h : Accounted transform infos s)
    (hstep : WalkStep transform s .takeErr s') (hret : s'.consumer = .returned none) :
    s'.called = infos ↔ s.infoCh.items = [] := by
  cases hstep with
  | @takeErr err hc hp =>
      cases hret
      rw [Accounted, hp] at h
      change s.called = infos ↔ _
      simp only [← h, WalkState.delivered, hc, Consumer.held, List.append_nil,
        List.self_eq_append_right]

/-- If the end is never taken before the entries, `Walk` returns nil only after the callback
was called once for each response, in order; and a run in which it is loses what was left. -/
theorem walk_loses_nothing_iff (transform : InfoTransfer → Except WalkError Info)
    (responses : List InfoTransfer) (infos : List Info)
    (hresp : Responses transform responses infos) :
    (∀ s, PatientReach transform (startWalk responses) s → s.consumer = .returned none →
        s.called = infos) ∧
      ∀ s s', WalkReach transform (startWalk responses) s → WalkStep transform s .takeErr s' →
        s'.consumer = .returned none → (s'.called = infos ↔ s.infoCh.items = []) := by
  constructor
  · intro s hrun
    have hinv : Accounted transform infos s ∧ (s.consumer = .returned none → s.called = infos) := by
      refine hrun.invariant (I := fun s => Accounted transform infos s ∧
        (s.consumer = .returned none → s.called = infos)) ⟨accounted_start hresp, ?_⟩ ?_
      · intro h
        cases h
      · rintro s e s' ⟨hacc, hdone⟩ ⟨hfn, hpatient⟩ hstep
        refine ⟨hacc.step hstep hfn, fun hret => ?_⟩
        cases hstep with
        | takeErr hc hp => exact (hacc.takeErr (.takeErr hc hp) hret).mpr (hpatient rfl)
        | takeInfo _ _ => cases hret
        | called _ => cases hret
        | callFailed _ _ => exact absurd rfl hfn
        | _ => exact hdone hret
    exact hinv.2
  · intro s s' hrun hstep hret
    have hacc := hrun.invariant (accounted_start hresp)
      fun s e t hs hfn hstep => Accounted.step hs hstep hfn
    exact hacc.takeErr hstep hret

end

/-! ## A walk with one entry -/

/-- `TransformIntoContentInfo` -/
def contentInfo (resp : InfoTransfer) : Except WalkError (Info plainClock) :=
  match transformIntoContentInfo .stored resp with
  | .ok info => .ok info
  | .error _ => .error (.transform 0)

/-- A blob of five bytes. -/
def oneResponse : InfoTransfer where
  id := []
  data := []
  complete := true
  metadata := AList.singleton (lit "size") (lit "5")
  tag := lit "sha256:0"

def oneInfo : Info plainClock := ⟨lit "sha256:0", 5, [], [], ∅⟩

theorem contentInfo_one : contentInfo oneResponse = .ok oneInfo := rfl

theorem responses_one : Responses contentInfo [oneResponse] [oneInfo] :=
  .last rfl contentInfo_one rfl

/-- The entry is on the channel, and the goroutine about to report the end. -/
def bothReady : WalkState (Info plainClock) where
  host := []
  ch := .empty
  cancelled := false
  producer := .report none
  infoCh := ⟨[oneInfo], by decide⟩
  consumer := .select
  called := []

theorem reach_bothReady : PatientReach contentInfo (startWalk [oneResponse]) bothReady := by
  have hnot : ∀ e : WalkEvent, e ≠ .takeErr → ∀ s : WalkState (Info plainClock), e = .takeErr →
      s.infoCh.items = [] := fun e he s h => absurd h he
  let received : WalkState (Info plainClock) :=
    { bothReady with producer := .send oneInfo true, infoCh := .empty }
  have hproducer : received.producer = .send oneInfo true := rfl
  have hsend : WalkStep contentInfo received .send bothReady := WalkStep.send hproducer rfl
  apply Reach.head ⟨by decide, hnot .accept (by decide) _⟩ (WalkStep.accept rfl rfl)
  apply Reach.head ⟨by decide, hnot .recv (by decide) _⟩ (WalkStep.recv rfl rfl)
  exact Reach.single ⟨by decide, hnot .send (by decide) _⟩ hsend

/-- The consumer takes the entry first. -/
def entryFirst : WalkState (Info plainClock) :=
  { bothReady with
    cancelled := true
    producer := .returned
    infoCh := .empty
    consumer := .returned none
    called := [oneInfo] }

theorem reach_entryFirst : PatientReach contentInfo (startWalk [oneResponse]) entryFirst := by
  apply reach_bothReady.trans
  apply Reach.head ⟨by decide, fun h => by cases h⟩ (WalkStep.takeInfo rfl rfl)
  apply Reach.head ⟨by decide, fun h => by cases h⟩ (WalkStep.called rfl)
  exact Reach.single ⟨by decide, fun _ => rfl⟩ (WalkStep.takeErr rfl rfl)

theorem walk_loses_nothing_one :
    PatientReach contentInfo (startWalk [oneResponse]) entryFirst ∧
      entryFirst.consumer = .returned none ∧ entryFirst.called = [oneInfo] :=
  ⟨reach_entryFirst, rfl,
    (walk_loses_nothing_iff contentInfo [oneResponse] [oneInfo] responses_one).1 entryFirst
      reach_entryFirst rfl⟩

/-- The consumer takes the end first. -/
def endFirst : WalkState (Info plainClock) :=
  { bothReady with cancelled := true, producer := .returned, consumer := .returned none }

/-- The one entry of the walk is lost, and `Walk` returns nil. -/
theorem walk_loses_entry :
    Responses contentInfo [oneResponse] [oneInfo] ∧
      WalkReach contentInfo (startWalk [oneResponse]) endFirst ∧
      endFirst.consumer = .returned none ∧ endFirst.called = [] := by
  refine ⟨responses_one, ?_, rfl, rfl⟩
  apply (reach_bothReady.mono fun s e h => h.1).tail _ (WalkStep.takeErr rfl rfl)
  decide

end BuilderShim.Content
