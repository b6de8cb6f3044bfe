/-
  Fssync/Serve.lean --- every request is served exactly.

  Seen from outside (`State.view`) the sender is a service of the requested numbers:
  a request is a job while the receive loop, the channel or a worker has it.  Every
  step is one of the service; jobs are lost only through a failure, a refusal or the
  context.
-/
import BuilderShim.Foundation.Service
import BuilderShim.Fssync.Align

set_option autoImplicit false

namespace BuilderShim.Fssync

open BuilderShim.Foundation

/-! ## The sender as a service -/

/-- What is to be sent for a number: the bytes of the entry with that place. -/
def wanted (c : Sender) (entries : List Stat) (id : UInt32) : Bytes :=
  match entries[id.toNat]? with
  | some st => c.bytesOf st.path
  | none => []

def SendHandle.job (c : Sender) (h : SendHandle) : UInt32 × Bytes := (h.id, c.bytesOf h.path)

def WorkerPoint.jobs (c : Sender) : WorkerPoint → List (UInt32 × Bytes)
  | .recv | .returned => []
  | .check h | .sendFile h => [h.job c]
  | .copy h _ left => [(h.id, left)]

def ReceivePoint.jobs (c : Sender) (entries : List Stat) : ReceivePoint → List (UInt32 × Bytes)
  | .queue id => [(id, wanted c entries id)]
  | .push h => [h.job c]
  | .select | .recvMsg | .fin | .returned => []

/-- What the receive loop and the channel have. -/
def Shared.jobs (c : Sender) (entries : List Stat) (s : Shared) : List (UInt32 × Bytes) :=
  s.receive.jobs c entries ++ s.sendpipeline.items.map (SendHandle.job c)

def State.view (c : Sender) (entries : List Stat) (s : State) : Service UInt32 UInt8 where
  asked := requested s.shared.received
  jobs := s.shared.jobs c entries ++ s.tasks.flatMap (WorkerPoint.jobs c)
  out := dataPackets s.shared.sent

/-- What was sent for a number, in order. -/
def Shared.dataOf (s : Shared) (id : UInt32) : List Bytes :=
  ((dataPackets s.sent).filter fun p => p.1 = id).map Prod.snd

/-- Nothing has gone wrong. -/
def Smooth (s : State) (e : Event) : Prop :=
  e ≠ .fail ∧ (∀ id, e ≠ .refuse id) ∧ s.shared.cancelled = false

section

variable {c : Sender} {entries : List Stat} {s s' : Shared} {ws : List WorkerPoint} {e : Event}
  {lossy : Prop}

theorem dataPackets_append (sent : List Packet) (p : Packet) :
    dataPackets (sent ++ [p]) = dataPackets sent ++ dataPackets [p] := List.filterMap_append

/-- A packet that is not data does not show. -/
theorem dataPackets_other {sent : List Packet} {p : Packet} (h : dataPackets [p] = []) :
    dataPackets (sent ++ [p]) = dataPackets sent := by
  rw [dataPackets_append, h, List.append_nil]

theorem requested_other {received : List Incoming} {p : Incoming} (h : requested [p] = []) :
    requested (received ++ [p]) = requested received := by
  rw [requested_append, h, List.append_nil]

/-- The view depends on what it shows. -/
theorem view_congr (hasked : requested s'.received = requested s.received)
    (hjobs : s'.jobs c entries = s.jobs c entries)
      (hout : dataPackets s'.sent = dataPackets s.sent) :
    State.view c entries ⟨s', ws⟩ = State.view c entries ⟨s, ws⟩ := by
  simp only [State.view, hasked, hjobs, hout]

theorem view_walk (h : WalkStep c s e s') :
    State.view c entries ⟨s', ws⟩ = State.view c entries ⟨s, ws⟩ := by
  cases h with
  | @note st left i _ =>
      obtain ⟨hrecv, hpipe, _, hsent, hreceived⟩ := note_frame s st i
      refine view_congr (congrArg requested hreceived) ?_ (congrArg dataPackets hsent)
      simp only [Shared.jobs, hrecv, hpipe]
  | sendStat _ | sendLast _ | report _ => exact view_congr rfl rfl (dataPackets_other rfl)
  | _ => rfl

variable {path : Bytes} {w w' : WorkerPoint}

/-- The path under a number is that of the entry with that place. -/
theorem Aligned.wanted_eq (h : Aligned entries s) {id : UInt32}
    (hlook : s.files.lookup id = some path) : wanted c entries id = c.bytesOf path := by
  obtain ⟨st, hget, rfl⟩ := h.files id path hlook
  simp only [wanted, hget]

theorem view_receive (h : ReceiveStep s e s') (halign : Aligned entries s)
    (he : Requesting ⟨s, ws⟩ e) (hloss : Smooth ⟨s, ws⟩ e ∨ lossy) :
    Service.Run (wanted c entries) lossy (State.view c entries ⟨s, ws⟩)
      (State.view c entries ⟨s', ws⟩) := by
  have hsame : State.view c entries ⟨s', ws⟩ = State.view c entries ⟨s, ws⟩ →
      Service.Run (wanted c entries) lossy (State.view c entries ⟨s, ws⟩)
        (State.view c entries ⟨s', ws⟩) := by
    intro heq
    rw [heq]
  cases h with
  | stop hp _ | next hp _ | recvFails hp | sendFinFails hp =>
      apply hsame
      refine view_congr rfl ?_ rfl
      simp only [Shared.jobs, Shared.endReceive, hp]
      rfl
  | recvFin hp | recvErr hp | recvOther hp =>
      apply hsame
      refine view_congr (requested_other rfl) ?_ rfl
      simp only [Shared.jobs, Shared.endReceive, hp]
      rfl
  | sendFin hp =>
      apply hsame
      refine view_congr rfl ?_ (dataPackets_other rfl)
      simp only [Shared.jobs, Shared.endReceive, Shared.send, hp]
      rfl
  | recvReq id hp =>
      have hview : State.view c entries ⟨{ s with
            received := s.received ++ [.req id], receive := .queue id }, ws⟩ =
          { State.view c entries ⟨s, ws⟩ with
            asked := (State.view c entries ⟨s, ws⟩).asked ++ [id]
            jobs := (id, wanted c entries id) :: (State.view c entries ⟨s, ws⟩).jobs } := by
        simp only [State.view, Shared.jobs, hp, requested_append]
        rfl
      rw [hview]
      exact .single (.ask id he.2)
  | @refuse id hp _ =>
      rcases hloss with ⟨_, hno, _⟩ | hlossy
      · exact (hno id rfl).elim
      · have hjobs : (State.view c entries ⟨s, ws⟩).jobs =
            (id, wanted c entries id) :: (State.view c entries ⟨s.endReceive, ws⟩).jobs := by
          simp only [State.view, Shared.jobs, Shared.endReceive, hp]
          rfl
        exact .single (.drop hlossy hjobs)
  | @queue id path hp hlook =>
      apply hsame
      refine view_congr rfl ?_ rfl
      simp only [Shared.jobs, hp, ReceivePoint.jobs, SendHandle.job, halign.wanted_eq hlook]
  | @push h ch hp hsend =>
      refine .single (.reorder ?_)
      simp only [State.view, Shared.jobs, hp, ReceivePoint.jobs, Chan.items_of_send hsend,
        List.map_append, List.map_cons, List.map_nil, List.nil_append]
      exact List.perm_append_comm.append_right _

/-- The jobs, with those of one worker in the middle. -/
theorem view_jobs (sh : Shared) (before after : List WorkerPoint) (w : WorkerPoint) :
    (State.view c entries ⟨sh, before ++ w :: after⟩).jobs =
      (sh.jobs c entries ++ before.flatMap (WorkerPoint.jobs c)) ++ w.jobs c ++
        after.flatMap (WorkerPoint.jobs c) := by
  simp only [State.view, List.flatMap_append, List.flatMap_cons, List.append_assoc]

/-- The view after a worker has moved. -/
theorem view_moved (sh : Shared) (before after : List WorkerPoint) {jobs : List (UInt32 × Bytes)}
    (hw : w.jobs c = jobs) :
    State.view c entries ⟨sh, before ++ w :: after ++ []⟩ =
      { asked := requested sh.received
        jobs := (sh.jobs c entries ++ before.flatMap (WorkerPoint.jobs c)) ++ jobs ++
          after.flatMap (WorkerPoint.jobs c)
        out := dataPackets sh.sent } := by
  rw [List.append_nil]
  rw [← hw, ← view_jobs]
  rfl

/-- A worker that goes on with the same job. -/
theorem run_same {sh : Shared} (before after : List WorkerPoint) (hw : w'.jobs c = w.jobs c) :
    Service.Run (wanted c entries) lossy (State.view c entries ⟨sh, before ++ w :: after⟩)
      (State.view c entries ⟨sh, before ++ w' :: after ++ []⟩) := by
  rw [view_moved sh before after hw, ← view_jobs]
  exact .refl

/-- A worker that gives its job up. -/
theorem run_drop {sh : Shared} (before after : List WorkerPoint) {job : UInt32 × Bytes}
    (hlossy : lossy) (hw : w.jobs c = [job]) (hw' : w'.jobs c = []) :
    Service.Run (wanted c entries) lossy (State.view c entries ⟨sh, before ++ w :: after⟩)
      (State.view c entries ⟨sh, before ++ w' :: after ++ []⟩) := by
  have hjobs : (State.view c entries ⟨sh, before ++ w :: after⟩).jobs = _ :=
    view_jobs sh before after w
  rw [hw] at hjobs
  rw [view_moved sh before after hw', List.append_nil]
  exact Service.Run.drop hlossy hjobs

theorem bytesOf_synthetic {bytes : Bytes} (h : c.synthetic path = some bytes) :
    c.bytesOf path = bytes := by
  simp only [Sender.bytesOf, h, Option.getD_some]

theorem bytesOf_file (h : c.synthetic path = none) :
    c.bytesOf path = c.contents path := by
  simp only [Sender.bytesOf, h, Option.getD_none]

theorem view_worker {before after new : List WorkerPoint} (h : WorkerStep c s w e s' w' new)
    (hloss : Smooth ⟨s, before ++ w :: after⟩ e ∨ lossy) :
    Service.Run (wanted c entries) lossy (State.view c entries ⟨s, before ++ w :: after⟩)
      (State.view c entries ⟨s', before ++ w' :: after ++ new⟩) := by
  have hjobs : (State.view c entries ⟨s, before ++ w :: after⟩).jobs = _ :=
    view_jobs s before after w
  cases h with
  | take hrecv =>
      refine .single ?_
      rw [view_moved _ before after rfl]
      refine .reorder ?_
      rw [hjobs]
      simp only [Shared.jobs, Chan.items_of_recv hrecv, WorkerPoint.jobs, List.map_cons,
        List.append_nil, List.append_assoc, List.cons_append, List.nil_append]
      refine List.Perm.append_left _ ?_
      simp only [← List.append_assoc]
      exact List.perm_middle.symm
  | drained _ _ | proceed _ => exact run_same before after rfl
  | openBytes hbytes =>
      apply run_same before after
      simp only [WorkerPoint.jobs, SendHandle.job, bytesOf_synthetic hbytes]
  | openFile hfile =>
      apply run_same before after
      simp only [WorkerPoint.jobs, SendHandle.job, bytesOf_file hfile]
  | chunk n hpos hle hn =>
      rw [view_moved _ before after rfl]
      simp only [Shared.send, dataPackets_append]
      exact Service.Run.piece hjobs n hpos hle
  | finish =>
      have hidle : WorkerPoint.jobs c .recv = [] := rfl
      rw [view_moved _ before after hidle, List.append_nil]
      simp only [Shared.send, dataPackets_append]
      exact Service.Run.finish hjobs
  | stop hc =>
      rcases hloss with ⟨_, _, hno⟩ | hlossy
      · exact absurd (hc.symm.trans hno) (by simp)
      · exact run_drop before after hlossy rfl rfl
  | openFails _ | copyFails =>
      rcases hloss with ⟨hno, _, _⟩ | hlossy
      · exact (hno rfl).elim
      · exact run_drop before after hlossy rfl rfl

end

variable {c : Sender} {entries : List Stat} {s : State} {k : Nat}

/-- Every step of the sender is one of the service. -/
theorem view_step {s' : State} {e : Event} {lossy : Prop} (h : Step c s e s')
    (halign : Aligned entries s.shared) (he : Requesting s e) (hloss : Smooth s e ∨ lossy) :
    Service.Run (wanted c entries) lossy (s.view c entries) (s'.view c entries) := by
  cases h with
  | walk hw => rw [view_walk hw]
  | receive hr => exact view_receive hr halign he hloss
  | worker hw =>
      cases hw with
      | mk before after hlocal => exact view_worker hlocal hloss
  | cancel => exact .refl

/-! ## What every run keeps -/

/-- Nothing fails, and requests are for regular files. -/
def Orderly (s : State) (e : Event) : Prop :=
  Requesting s e ∧ e ≠ .fail ∧ e ≠ .cancel ∧ e ≠ .recv .err ∧
    ∀ id, e = .recv (.req id) → ∃ st, (stats s.shared.sent)[id.toNat]? = some st ∧
      fileCanRequestData st.mode = true

/-- A number that was requested is the place of a stat that was sent. -/
def Placed (s : State) : Prop :=
  ∀ id ∈ requested s.shared.received, id.toNat < (stats s.shared.sent).length

section

variable {c : Sender} {entries : List Stat} {s s' : State} {e : Event}

theorem received_of_step (h : Step c s e s') :
    s'.shared.received = s.shared.received ∨
      ∃ p, e = .recv p ∧ s'.shared.received = s.shared.received ++ [p] := by
  cases h with
  | walk hw =>
      cases hw with
      | @note st left i _ => exact .inl (note_frame _ st i).2.2.2.2
      | _ => exact .inl rfl
  | receive hr =>
      cases hr with
      | recvReq _ _ | recvFin _ | recvErr _ | recvOther _ => exact .inr ⟨_, rfl, rfl⟩
      | _ => exact .inl rfl
  | worker hw =>
      cases hw with
      | mk before after hlocal => cases hlocal <;> exact .inl rfl
  | cancel => exact .inl rfl

theorem sent_of_step (h : Step c s e s') : s.shared.sent <+: s'.shared.sent := by
  cases h with
  | walk hw =>
      cases hw with
      | @note st left i _ =>
          dsimp only
          rw [(note_frame _ st i).2.2.2.1]
      | sendStat _ | sendLast _ | report _ => exact List.prefix_append _ _
      | _ => exact List.prefix_refl _
  | receive hr =>
      cases hr with
      | sendFin _ => exact List.prefix_append _ _
      | _ => exact List.prefix_refl _
  | worker hw =>
      cases hw with
      | mk before after hlocal =>
          cases hlocal with
          | chunk _ _ _ _ | finish => exact List.prefix_append _ _
          | _ => exact List.prefix_refl _
  | cancel => exact List.prefix_refl _

theorem stats_of_step (h : Step c s e s') :
    stats s.shared.sent <+: stats s'.shared.sent := (sent_of_step h).filterMap _

theorem Placed.step (hp : Placed s) (he : Requesting s e) (h : Step c s e s') : Placed s' := by
  intro id hid
  refine Nat.lt_of_lt_of_le ?_ (stats_of_step h).length_le
  rcases received_of_step h with heq | ⟨p, rfl, heq⟩
  · rw [heq] at hid
    exact hp id hid
  · rw [heq, requested_append, List.mem_append] at hid
    rcases hid with hold | hnew
    · exact hp id hold
    · cases p with
      | req id' =>
          rw [List.mem_singleton.mp hnew]
          exact he.1
      | fin | err | other => cases hnew

variable {id : UInt32} {w w' : WorkerPoint}

/-- The stat with the place of a number, once it was sent. -/
theorem Aligned.stat_eq (h : Aligned entries s.shared)
    (hid : id.toNat < (stats s.shared.sent).length) :
    ∃ st, (stats s.shared.sent)[id.toNat]? = some st ∧ entries[id.toNat]? = some st ∧
      wanted c entries id = c.bytesOf st.path := by
  have hget := List.getElem?_eq_getElem hid
  have hentry : entries[id.toNat]? = (stats s.shared.sent)[id.toNat]? := by
    rw [h.front, List.getElem?_take_of_lt hid]
  rw [hget] at hentry
  refine ⟨_, hget, hentry, ?_⟩
  simp only [wanted, hentry]

/-- What holds in every run with such requests, whatever fails. -/
structure Kept (c : Sender) (entries : List Stat) (lossy : Prop) (s : State) : Prop where
  aligned : Aligned entries s.shared
  placed : Placed s
  sound : Service.Sound (wanted c entries) lossy (s.view c entries)

theorem Kept.initial (c : Sender) (entries : List Stat) (lossy : Prop) :
    Kept c entries lossy (initial entries) :=
  ⟨.initial entries, (fun _ h => nomatch h), by
    have hview : (Fssync.initial entries).view c entries = ⟨[], [], []⟩ := by
      simp [State.view, Fssync.initial, Shared.jobs, Shared.initial, ReceivePoint.jobs,
        WorkerPoint.jobs, requested, dataPackets]
    rw [hview]
    exact .initial⟩

theorem Kept.step {lossy : Prop} (h : Kept c entries lossy s) (hlen : entries.length ≤ 2 ^ 32)
    (he : Requesting s e) (hloss : Smooth s e ∨ lossy) (hstep : Step c s e s') :
    Kept c entries lossy s' :=
  ⟨h.aligned.step hlen he hstep, h.placed.step he hstep,
    h.sound.run (view_step hstep h.aligned he hloss)⟩

theorem kept_of_reach (hlen : entries.length ≤ 2 ^ 32)
    (hrun : Reach (Step c) Requesting (initial entries) s) : Kept c entries True s :=
  hrun.invariant (I := Kept c entries True) (.initial c entries True)
    fun _ _ _ h he hstep => h.step hlen he (.inr trivial) hstep

/-- A number is refused only if it is not that of a regular file. -/
theorem Kept.refused {lossy : Prop} (h : Kept c entries lossy s) (hstep : Step c s (.refuse id) s')
    {st : Stat} (hst : (stats s.shared.sent)[id.toNat]? = some st) :
    fileCanRequestData st.mode = false := by
  cases hstep with
  | walk hw => cases hw
  | worker hw =>
      cases hw with
      | mk before after hlocal => cases hlocal
  | receive hr =>
      cases hr with
      | refuse hp hlook =>
          obtain ⟨hmem, hsome⟩ := h.aligned.queue id hp
          obtain ⟨st', hst', hentry, _⟩ := h.aligned.stat_eq (c := c) (h.placed id hmem)
          rw [hst] at hst'
          cases hst'
          cases hreg : fileCanRequestData st.mode with
          | false => rfl
          | true =>
              have hin := hsome st hentry hreg
              rw [hlook] at hin
              cases hin

/-! ## Progress -/

/-- In a run in which nothing fails: requests are for regular files, the context is not
cancelled, and workers stay until the channel is closed and empty. -/
structure Flowing (c : Sender) (entries : List Stat) (s : State) : Prop where
  kept : Kept c entries False s
  regular : ∀ id ∈ requested s.shared.received, ∃ st, entries[id.toNat]? = some st ∧
    fileCanRequestData st.mode = true
  cancelled : s.shared.cancelled = false
  ended : .returned ∈ s.tasks → s.shared.closed = true ∧ s.shared.sendpipeline.items = []
  closed : s.shared.closed = true → s.shared.receive = .returned
  workers : s.tasks.length = 64

theorem Flowing.queued (h : Flowing c entries s) (hp : s.shared.receive = .queue id) :
    ∃ path, s.shared.files.lookup id = some path := by
  obtain ⟨hmem, hsome⟩ := h.kept.aligned.queue id hp
  obtain ⟨st, hentry, hreg⟩ := h.regular id hmem
  exact Option.isSome_iff_exists.mp (hsome st hentry hreg)

theorem Flowing.smooth (h : Flowing c entries s) (he : Orderly s e) (hstep : Step c s e s') :
    Smooth s e := by
  refine ⟨he.2.1, ?_, h.cancelled⟩
  rintro id rfl
  cases hstep with
  | walk hw => cases hw
  | worker hw =>
      cases hw with
      | mk before after hlocal => cases hlocal
  | receive hr =>
      cases hr with
      | refuse hp hlook =>
          obtain ⟨path, hpath⟩ := h.queued hp
          rw [hlook] at hpath
          cases hpath

/-- Nobody sends into the channel once it is closed. -/
theorem ReceiveStep.items {s s' : Shared} (h : ReceiveStep s e s')
    (hp : s.receive = .returned) : False := by
  cases h with
  | stop h _ | next h _ | recvReq _ h | recvFin h | recvErr h | recvOther h | recvFails h
  | refuse h _ | queue h _ | push h _ | sendFin h | sendFinFails h =>
      rw [hp] at h
      cases h

theorem WalkStep.pipeline {s s' : Shared} (h : WalkStep c s e s') :
    s'.sendpipeline = s.sendpipeline ∧ s'.cancelled = s.cancelled := by
  cases h with
  | @note st left i _ =>
      unfold Shared.note
      split
      · exact ⟨rfl, rfl⟩
      · exact ⟨rfl, rfl⟩
  | _ => exact ⟨rfl, rfl⟩

theorem ReceiveStep.cancelled {s s' : Shared} (h : ReceiveStep s e s') :
    s'.cancelled = s.cancelled := by
  cases h <;> rfl

/-- A worker that returns without a failure has found the channel closed and empty. -/
theorem Flowing.ended_worker {before after new : List WorkerPoint} {sh sh' : Shared}
    (h : Flowing c entries ⟨sh, before ++ w :: after⟩) (hno : e ≠ .fail)
    (hstep : WorkerStep c sh w e sh' w' new) (hmem : .returned ∈ before ++ w' :: after ++ new) :
    sh'.closed = true ∧ sh'.sendpipeline.items = [] := by
  have hothers : .returned ∈ before ++ after → sh.closed = true ∧ sh.sendpipeline.items = [] := by
    intro hin
    refine h.ended ?_
    rw [List.mem_append] at hin
    rcases hin with hin | hin
    · exact List.mem_append_left _ hin
    · exact List.mem_append_right _ (List.mem_cons_of_mem _ hin)
  have hcancelled : sh.cancelled = false := h.cancelled
  have hcases : w' = .returned ∨ .returned ∈ before ++ after ∨ .returned ∈ new := by
    simp only [List.mem_append, List.mem_cons] at hmem ⊢
    rcases hmem with (h₁ | h₂ | h₃) | h₄
    · exact .inr (.inl (.inl h₁))
    · exact .inl h₂.symm
    · exact .inr (.inl (.inr h₃))
    · exact .inr (.inr h₄)
  cases hstep with
  | take hrecv =>
      rcases hcases with hw | hin | hin
      · cases hw
      · have hnil := (hothers hin).2
        rw [Chan.items_of_recv hrecv] at hnil
        cases hnil
      · cases hin
  | drained hempty hclosed =>
      refine ⟨hclosed, ?_⟩
      rcases hch : sh.sendpipeline with ⟨items, hb⟩
      rw [hch] at hempty
      cases items with
      | nil => rfl
      | cons x xs => cases hempty
  | stop hc => exact absurd (hcancelled.symm.trans hc) (by simp)
  | openFails _ | copyFails => exact (hno rfl).elim
  | proceed _ | openBytes _ | openFile _ | chunk _ _ _ _ | finish =>
      rcases hcases with hw | hin | hin
      · cases hw
      · exact hothers hin
      · cases hin

theorem Flowing.regular_step (h : Flowing c entries s) (he : Orderly s e)
    (hstep : Step c s e s') (id : UInt32) (hid : id ∈ requested s'.shared.received) :
    ∃ st, entries[id.toNat]? = some st ∧ fileCanRequestData st.mode = true := by
  rcases received_of_step hstep with heq | ⟨p, rfl, heq⟩
  · rw [heq] at hid
    exact h.regular id hid
  · rw [heq, requested_append, List.mem_append] at hid
    rcases hid with hold | hnew
    · exact h.regular id hold
    · cases p with
      | fin | err | other => cases hnew
      | req id' =>
          rw [List.mem_singleton.mp hnew]
          obtain ⟨st, hst, hreg⟩ := he.2.2.2.2 id' rfl
          obtain ⟨st', hst', hentry, _⟩ := h.kept.aligned.stat_eq (c := c) he.1.1
          rw [hst] at hst'
          cases hst'
          exact ⟨st, hentry, hreg⟩

theorem Flowing.step (h : Flowing c entries s) (hlen : entries.length ≤ 2 ^ 32)
    (he : Orderly s e) (hstep : Step c s e s') : Flowing c entries s' := by
  have hkept := h.kept.step hlen he.1 (.inl (h.smooth he hstep)) hstep
  have hregular := h.regular_step he hstep
  have hworkers := (workers_of_step hstep).trans h.workers
  cases hstep with
  | walk hw =>
      obtain ⟨hpipe, hcancel⟩ := hw.pipeline
      obtain ⟨hrecv, hclosed⟩ := hw.frame
      refine ⟨hkept, hregular, hcancel.trans h.cancelled, ?_, ?_, hworkers⟩
      · dsimp only
        rw [hpipe, hclosed]
        exact h.ended
      · dsimp only
        rw [hclosed, hrecv]
        exact h.closed
  | receive hr =>
      refine ⟨hkept, hregular, hr.cancelled.trans h.cancelled, fun hmem => ?_,
        (hr.closed h.closed).1, hworkers⟩
      exact (hr.items (h.closed (h.ended hmem).1)).elim
  | worker hw =>
      cases hw with
      | mk before after hlocal =>
          have hframe := hlocal.frame
          refine ⟨hkept, hregular, ?_, h.ended_worker he.2.1 hlocal, ?_, hworkers⟩
          · cases hlocal <;> exact h.cancelled
          · dsimp only
            rw [hframe.1, hframe.2]
            exact h.closed
  | cancel => exact (he.2.2.1 rfl).elim

theorem Flowing.initial (c : Sender) (entries : List Stat) :
    Flowing c entries (initial entries) where
  kept := .initial c entries False
  regular := fun _ h => nomatch h
  cancelled := rfl
  ended := fun h => nomatch (List.eq_of_mem_replicate h)
  closed := fun h => nomatch h
  workers := List.length_replicate

theorem flowing_of_reach (hlen : entries.length ≤ 2 ^ 32)
    (hrun : Reach (Step c) Orderly (initial entries) s) : Flowing c entries s :=
  hrun.invariant (I := Flowing c entries) (.initial c entries)
    fun _ _ _ h he hstep => h.step hlen he hstep

/-- What the sender does by itself, when nothing fails. -/
def Internal (_ : State) : Event → Prop
  | .tau | .opens _ => True
  | .fail | .cancel | .recv _ | .refuse _ => False

theorem Internal.orderly (he : Internal s e) : Orderly s e := by
  cases e with
  | tau | opens path =>
      exact ⟨trivial, nofun, nofun, nofun, nofun⟩
  | fail | cancel | recv p | refuse id => exact he.elim

/-! ### Every step does some of the work -/

def WalkPoint.rank : WalkPoint → Nat
  | .entry left _ => 2 * left.length + 2
  | .send _ left _ => 2 * left.length + 3
  | .sendLast | .report => 1
  | .returned => 0

def ReceivePoint.rank (c : Sender) (entries : List Stat) : ReceivePoint → Nat
  | .queue id => (wanted c entries id).length + 8
  | .push h => (c.bytesOf h.path).length + 7
  | .select | .fin => 1
  | .recvMsg | .returned => 0

def WorkerPoint.rank (c : Sender) : WorkerPoint → Nat
  | .recv => 1
  | .check h => (c.bytesOf h.path).length + 4
  | .sendFile h => (c.bytesOf h.path).length + 3
  | .copy _ _ left => left.length + 2
  | .returned => 0

def Shared.rank (c : Sender) (entries : List Stat) (s : Shared) : Nat :=
  s.walk.rank + s.receive.rank c entries +
    (s.sendpipeline.items.map fun h => (c.bytesOf h.path).length + 5).sum

def State.rank (c : Sender) (entries : List Stat) (s : State) : Nat :=
  s.shared.rank c entries + s.weight (WorkerPoint.rank c)

theorem WalkStep.rank_lt {s s' : Shared} (h : WalkStep c s .tau s') :
    s'.rank c entries < s.rank c entries := by
  cases h with
  | @note st left i hp =>
      obtain ⟨hrecv, hpipe, _⟩ := note_frame s st i
      simp only [Shared.rank, hp, hrecv, hpipe, WalkPoint.rank, List.length_cons]
      omega
  | walkEnd hp | sendStat hp | sendLast hp | report hp =>
      simp only [Shared.rank, Shared.send, hp, WalkPoint.rank, List.length_nil]
      omega

theorem ReceiveStep.rank_lt {s s' : Shared} (h : ReceiveStep s .tau s')
    (halign : Aligned entries s) : s'.rank c entries < s.rank c entries := by
  cases h with
  | queue hp hlook =>
      simp only [Shared.rank, hp, ReceivePoint.rank, halign.wanted_eq (c := c) hlook]
      omega
  | push hp hsend =>
      simp only [Shared.rank, hp, ReceivePoint.rank, Chan.items_of_send hsend, List.map_append,
        List.map_cons, List.map_nil, List.sum_append, List.sum_cons, List.sum_nil]
      omega
  | stop hp _ | next hp _ | sendFin hp =>
      simp only [Shared.rank, Shared.endReceive, Shared.send, hp, ReceivePoint.rank]
      omega

theorem WorkerStep.rank_lt {s s' : Shared} {new : List WorkerPoint}
    (h : WorkerStep c s w e s' w' new) (hno : e ≠ .fail) :
    s'.rank c entries + w'.rank c + (new.map (WorkerPoint.rank c)).sum + 1 ≤
      s.rank c entries + w.rank c := by
  cases h with
  | take hrecv =>
      simp only [Shared.rank, Chan.items_of_recv hrecv, List.map_cons, List.sum_cons,
        WorkerPoint.rank, List.map_nil, List.sum_nil]
      omega
  | openBytes hbytes =>
      simp only [WorkerPoint.rank, bytesOf_synthetic hbytes, List.map_nil, List.sum_nil]
      omega
  | openFile hfile =>
      simp only [WorkerPoint.rank, bytesOf_file hfile, List.map_nil, List.sum_nil]
      omega
  | chunk n hpos hle _ =>
      simp only [Shared.rank, Shared.send, WorkerPoint.rank, List.length_drop, List.map_nil,
        List.sum_nil]
      omega
  | drained _ _ | stop _ | proceed _ | finish =>
      simp only [Shared.rank, Shared.send, WorkerPoint.rank, List.length_nil, List.map_nil,
        List.sum_nil]
      omega
  | openFails _ | copyFails => exact (hno rfl).elim

theorem rank_lt (hstep : Step c s e s') (he : Internal s e) (halign : Aligned entries s.shared) :
    s'.rank c entries < s.rank c entries := by
  cases hstep with
  | walk hw =>
      cases e with
      | tau => exact Nat.add_lt_add_right hw.rank_lt _
      | opens path => cases hw
      | fail | cancel | recv p | refuse id => exact he.elim
  | receive hr =>
      cases e with
      | tau => exact Nat.add_lt_add_right (hr.rank_lt halign) _
      | opens path => cases hr
      | fail | cancel | recv p | refuse id => exact he.elim
  | worker hw =>
      refine Tasks.budget_le 1 hw fun hlocal => hlocal.rank_lt ?_
      rintro rfl
      exact he
  | cancel => exact he.elim

/-! ### A job that is not done can be worked on -/

/-- Some step is possible without anything from outside. -/
def Live (c : Sender) (s : State) : Prop := ∃ s', Moves (Step c) Internal s s'

theorem live_worker {sh' : Shared} {e : Event} (hmem : w ∈ s.tasks) (he : Internal s e)
    (h : WorkerStep c s.shared w e sh' w' []) : Live c s := by
  obtain ⟨s', hs'⟩ := TaskStep.of_mem hmem h
  exact ⟨s', e, he, .worker hs'⟩

/-- A worker with a job can go on. -/
theorem Flowing.live_busy (h : Flowing c entries s) (hmem : w ∈ s.tasks)
    (hbusy : w ≠ .recv ∧ w ≠ .returned) : Live c s := by
  cases w with
  | recv => exact (hbusy.1 rfl).elim
  | returned => exact (hbusy.2 rfl).elim
  | check hd => exact live_worker hmem (e := .tau) trivial (.proceed h.cancelled)
  | sendFile hd =>
      cases hsyn : c.synthetic hd.path with
      | some bytes => exact live_worker hmem (e := .tau) trivial (.openBytes hsyn)
      | none => exact live_worker hmem (e := .opens hd.path) trivial (.openFile hsyn)
  | copy hd whole left =>
      cases left with
      | nil => exact live_worker hmem (e := .tau) trivial .finish
      | cons x xs =>
          cases whole with
          | true =>
              exact live_worker hmem (e := .tau) trivial
                (.chunk (x :: xs).length (Nat.succ_pos _) (Nat.le_refl _) rfl)
          | false =>
              exact live_worker hmem (e := .tau) trivial
                (.chunk 1 Nat.one_pos (Nat.succ_le_succ (Nat.zero_le _))
                  (Nat.le_of_ble_eq_true rfl))

/-- A handle in the channel will be taken. -/
theorem Flowing.live_items (h : Flowing c entries s)
    (hitems : s.shared.sendpipeline.items ≠ []) : Live c s := by
  obtain ⟨w, hw⟩ : ∃ w, w ∈ s.tasks := by
    apply List.exists_mem_of_length_pos
    rw [h.workers]
    exact Nat.succ_pos _
  by_cases hrecv : w = .recv
  · subst hrecv
    rcases hch : s.shared.sendpipeline with ⟨items, hb⟩
    rw [hch] at hitems
    cases items with
    | nil => exact (hitems rfl).elim
    | cons hd rest =>
        have htake : s.shared.sendpipeline.recv = some (hd, ⟨rest, Nat.le_of_succ_le hb⟩) := by
          rw [hch]
          rfl
        exact live_worker hw (e := .tau) trivial (.take htake)
  · refine h.live_busy hw ⟨hrecv, ?_⟩
    rintro rfl
    exact hitems (h.ended hw).2

theorem Flowing.live (h : Flowing c entries s) {job : UInt32 × Bytes}
    (hjob : job ∈ (s.view c entries).jobs) : Live c s := by
  simp only [State.view, Shared.jobs, List.mem_append, List.mem_map, List.mem_flatMap] at hjob
  rcases hjob with (hrecv | ⟨hd, hmem, _⟩) | ⟨w, hw, hjobs⟩
  · cases hp : s.shared.receive with
    | queue id =>
        obtain ⟨path, hlook⟩ := h.queued hp
        exact ⟨_, .tau, trivial, .receive (.queue hp hlook)⟩
    | push hd =>
        cases hsend : s.shared.sendpipeline.send hd with
        | some ch => exact ⟨_, .tau, trivial, .receive (.push hp hsend)⟩
        | none =>
            apply h.live_items
            intro hnil
            have hfull := Chan.send_eq_none_iff.mp hsend
            rw [hnil] at hfull
            cases hfull
    | select | recvMsg | fin | returned =>
        rw [hp] at hrecv
        cases hrecv
  · apply h.live_items
    intro hnil
    rw [hnil] at hmem
    cases hmem
  · refine h.live_busy hw ⟨?_, ?_⟩
    · rintro rfl
      cases hjobs
    · rintro rfl
      cases hjobs

/-- The requests of `s` have all been served. -/
def AllServed (c : Sender) (s s' : State) : Prop :=
  ∀ id ∈ requested s.shared.received, ∃ st, (stats s'.shared.sent)[id.toNat]? = some st ∧
    Service.Served (c.bytesOf st.path) (s'.shared.dataOf id)

theorem Flowing.allServed_or_live (h : Flowing c entries s) (hno : ¬ AllServed c s s) :
    Live c s := by
  by_contra hstuck
  refine hno fun id hid => ?_
  obtain ⟨st, hst, _, hwant⟩ := h.kept.aligned.stat_eq (c := c) (h.kept.placed id hid)
  refine ⟨st, hst, ?_⟩
  rw [← hwant]
  rcases h.kept.sound.done id hid fun left hmem => hstuck (h.live hmem) with hserved | ⟨hf, _⟩
  · exact hserved
  · exact hf.elim

theorem received_of_internal (hstep : Step c s e s') (he : Internal s e) :
    s'.shared.received = s.shared.received := by
  rcases received_of_step hstep with heq | ⟨p, rfl, _⟩
  · exact heq
  · exact he.elim

theorem inevitable_served (hlen : entries.length ≤ 2 ^ 32) (h : Flowing c entries s) :
    Inevitable (Moves (Step c) Internal) (AllServed c s) s := by
  refine Inevitable.of_rank
    (I := fun t => Flowing c entries t ∧ t.shared.received = s.shared.received)
    (State.rank c entries) ?_ ?_ ?_ ⟨h, rfl⟩
  · rintro t t' ⟨ht, hreq⟩ ⟨e, he, hstep⟩
    exact ⟨ht.step hlen he.orderly hstep, (received_of_internal hstep he).trans hreq⟩
  · rintro t t' ⟨ht, _⟩ ⟨e, he, hstep⟩
    exact rank_lt hstep he ht.kept.aligned
  · rintro t ⟨ht, hreq⟩ hno
    apply ht.allServed_or_live
    unfold AllServed at hno ⊢
    rw [hreq]
    exact hno

end

/-- Trees of at most 2^32 entries, requests for numbers whose stat was sent, each at most
once.  Whatever else happens: a request is refused only for an entry that is not a regular
file; for a number nothing is sent before it is requested, and then a beginning of the bytes
of its path and of the empty packet at the end.  If nothing fails and regular files are
requested, the sender goes on to send the whole of it. -/
theorem serves_requests (c : Sender) (entries : List Stat) (hlen : entries.length ≤ 2 ^ 32) :
    (∀ s, Reach (Step c) Requesting (initial entries) s →
      (∀ id s', Step c s (.refuse id) s' → ∀ st, (stats s.shared.sent)[id.toNat]? = some st →
        fileCanRequestData st.mode = false) ∧
      (∀ id, id ∉ requested s.shared.received → s.shared.dataOf id = []) ∧
      ∀ id ∈ requested s.shared.received,
        ∃ st rest, (stats s.shared.sent)[id.toNat]? = some st ∧
          Service.Served (c.bytesOf st.path) (s.shared.dataOf id ++ rest)) ∧
    ∀ s, Reach (Step c) Orderly (initial entries) s →
      Inevitable (Moves (Step c) Internal) (AllServed c s) s := by
  refine ⟨fun s hrun => ?_, fun s hrun => inevitable_served hlen (flowing_of_reach hlen hrun)⟩
  have h := kept_of_reach hlen hrun
  refine ⟨fun id s' hstep st hst => h.refused hstep hst, h.sound.idle, fun id hid => ?_⟩
  obtain ⟨st, hst, _, hwant⟩ := h.aligned.stat_eq (c := c) (h.placed id hid)
  obtain ⟨rest, hserved⟩ := h.sound.exists_served hid
  rw [hwant] at hserved
  exact ⟨st, rest, hst, hserved⟩

/-- A context of one file, requested as soon as it is announced. -/
theorem serves_requests_one :
    ∃ s, Reach (Step ⟨none, id, []⟩) Orderly (initial [⟨lit "f", 0o644⟩]) s ∧
      requested s.shared.received = [0] ∧
      Inevitable (Moves (Step ⟨none, id, []⟩) Internal) (AllServed ⟨none, id, []⟩ s) s := by
  have h : Reach (Step ⟨none, id, []⟩) Orderly (initial [⟨lit "f", 0o644⟩]) _ := .refl _
  have h := h.tail (Internal.orderly (e := .tau) trivial) (.walk (.note rfl))
  have h := h.tail (Internal.orderly (e := .tau) trivial) (.walk (.sendStat rfl))
  have h := h.tail (Internal.orderly (e := .tau) trivial) (.receive (.next rfl rfl))
  have h := h.tail (by exact ⟨⟨Nat.one_pos, List.not_mem_nil⟩, nofun, nofun, nofun,
    fun id h => (by cases h; exact ⟨_, rfl, rfl⟩)⟩) (.receive (.recvReq 0 rfl))
  have hlen : [(⟨lit "f", 0o644⟩ : Stat)].length ≤ 2 ^ 32 := by decide
  exact ⟨_, h, rfl, (serves_requests _ _ hlen).2 _ h⟩

/-! ## Numbers that wrap around -/

/-- The walk has come to the entry `k`, and nothing else has happened. -/
structure Walked (entries : List Stat) (k : Nat) (s : State) : Prop where
  walk : s.shared.walk = .entry (entries.drop k) (UInt32.ofNat k)
  front : stats s.shared.sent = entries.take k
  data : dataPackets s.shared.sent = []
  receive : s.shared.receive = .select
  cancelled : s.shared.cancelled = false
  received : s.shared.received = []
  pipeline : s.shared.sendpipeline = .empty
  workers : s.tasks = List.replicate 64 .recv
  last : ∀ (j : Nat) (st : Stat), k = j + 1 → entries[j]? = some st →
    fileCanRequestData st.mode = true → s.shared.files.lookup (UInt32.ofNat j) = some st.path

theorem Walked.next (h : Walked entries k s) (hk : k < entries.length) :
    ∃ s', Reach (Step c) Orderly s s' ∧ Walked entries (k + 1) s' := by
  have hget : entries[k]? = some entries[k] := List.getElem?_eq_getElem hk
  have hwalk : s.shared.walk = .entry (entries[k] :: entries.drop (k + 1)) (UInt32.ofNat k) := by
    rw [h.walk, List.drop_eq_getElem_cons hk]
  have hrun : Reach (Step c) Orderly s s := .refl s
  have hrun := hrun.tail (Internal.orderly (e := .tau) trivial) (.walk (.note hwalk))
  have hrun := hrun.tail (Internal.orderly (e := .tau) trivial) (.walk (.sendStat rfl))
  obtain ⟨hrecv, hpipe, _, hsent, hreceived⟩ := note_frame s.shared entries[k] (UInt32.ofNat k)
  refine ⟨_, hrun, ?_, ?_, ?_, ?_, ?_, ?_, ?_, h.workers, ?_⟩
  · simp only [UInt32.ofNat_add]
    rfl
  · simp only [Shared.send, hsent]
    rw [stats_append, h.front, List.take_add_one, hget]
    rfl
  · simp only [Shared.send, hsent]
    rw [dataPackets_other rfl, h.data]
  · exact hrecv.trans h.receive
  · have hcancel : (s.shared.note entries[k] (UInt32.ofNat k)).cancelled = s.shared.cancelled := by
      unfold Shared.note
      split
      · rfl
      · rfl
    exact hcancel.trans h.cancelled
  · exact hreceived.trans h.received
  · exact hpipe.trans h.pipeline
  · intro j st hj hst hreg
    cases hj
    rw [hget] at hst
    cases hst
    simp only [Shared.send]
    rw [lookup_note, if_pos ⟨hreg, rfl⟩]

theorem exists_walked (c : Sender) (hk : k ≤ entries.length) :
    ∃ s, Reach (Step c) Orderly (initial entries) s ∧ Walked entries k s := by
  induction k with
  | zero =>
      refine ⟨_, .refl _, ⟨rfl, rfl, rfl, rfl, rfl, rfl, rfl, rfl, fun j st hj => ?_⟩⟩
      cases hj
  | succ k ih =>
      obtain ⟨s, hrun, hs⟩ := ih (Nat.le_of_succ_le hk)
      obtain ⟨s', hrun', hs'⟩ := hs.next (c := c) hk
      exact ⟨s', hrun.trans hrun', hs'⟩

/-- The first worker serves a request, with the others idle. -/
theorem Walked.serve (h : Walked entries k s) {id : UInt32} {path : Bytes} {st : Stat}
    (hlook : s.shared.files.lookup id = some path) (hid : entries[id.toNat]? = some st)
    (hlt : id.toNat < k) (hreg : fileCanRequestData st.mode = true)
    (hfile : c.synthetic path = none) (hpos : 0 < (c.contents path).length)
    (hshort : (c.contents path).length ≤ 2 ^ 20) :
    ∃ s', Reach (Step c) Orderly s s' ∧ s'.shared.received = [.req id] ∧
      s'.shared.sent = s.shared.sent ++ [.data id (c.contents path)] ++ [.data id []] := by
  have hstat : (stats s.shared.sent)[id.toNat]? = some st := by
    rw [h.front, List.getElem?_take_of_lt hlt, hid]
  have hreq : Orderly ⟨{ s.shared with receive := .recvMsg }, s.tasks⟩ (.recv (.req id)) := by
    refine ⟨⟨(List.getElem?_eq_some_iff.mp hstat).1, ?_⟩, nofun, nofun, nofun, ?_⟩
    · rw [h.received]
      exact List.not_mem_nil
    · intro id' hid'
      cases hid'
      exact ⟨st, hstat, hreg⟩
  have htask : ∀ {sh sh' : Shared} {w w' : WorkerPoint} {e : Event},
      WorkerStep c sh w e sh' w' [] →
      Step c ⟨sh, w :: List.replicate 63 .recv⟩ e ⟨sh', w' :: List.replicate 63 .recv⟩ := by
    intro sh sh' w w' e hstep
    have hmk := TaskStep.mk [] (List.replicate 63 WorkerPoint.recv) hstep
    rw [List.append_nil] at hmk
    exact .worker hmk
  have hpush : s.shared.sendpipeline.send ⟨id, path⟩ =
      some ⟨[⟨id, path⟩], Nat.succ_le_succ (Nat.zero_le _)⟩ := by
    rw [h.pipeline]
    rfl
  have htau : ∀ s : State, Orderly s .tau := fun _ => Internal.orderly trivial
  have hrun : Reach (Step c) Orderly s s := .refl s
  have hrun := hrun.tail (htau _) (.receive (.next h.receive h.cancelled))
  have hrun := hrun.tail hreq (.receive (.recvReq id rfl))
  have hrun := hrun.tail (htau _) (.receive (.queue rfl hlook))
  have hrun := hrun.tail (htau _) (.receive (.push rfl hpush))
  rw [h.workers] at hrun
  have hrun := hrun.tail (htau _) (htask (.take rfl))
  have hrun := hrun.tail (htau _) (htask (.proceed h.cancelled))
  have hopen : ∀ s : State, Orderly s (.opens path) := fun _ => Internal.orderly trivial
  have hrun := hrun.tail (hopen _) (htask (.openFile hfile))
  have hrun := hrun.tail (htau _) (htask (.chunk _ hpos (Nat.le_refl _) hshort))
  rw [List.drop_length, List.take_length] at hrun
  have hrun := hrun.tail (htau _) (htask .finish)
  refine ⟨_, hrun, ?_, rfl⟩
  simp only [Shared.send, h.received]
  rfl

/-- The name of the file `k`: nine letters, in the order of `k`. -/
def fileName (k : Nat) : Bytes :=
  (List.range 9).map fun j => UInt8.ofNat (97 + k / 16 ^ (8 - j) % 16)

/-- One file more than there are numbers. -/
def hugeContext : List Stat := (List.range (2 ^ 32 + 1)).map fun k => ⟨fileName k, 0o644⟩

theorem hugeContext_get (hk : k < 2 ^ 32 + 1) :
    hugeContext[k]? = some ⟨fileName k, 0o644⟩ := by
  unfold hugeContext
  rw [List.getElem?_map, List.getElem?_range hk]
  rfl

/-- With the stats of all files sent, the number 0 stands for the last one: the client that
requests the first file, here with files that hold their names, is sent the last one. -/
theorem serves_wrong_file :
    ∃ s, Reach (Step ⟨none, id, []⟩) Orderly (initial hugeContext) s ∧
      requested s.shared.received = [0] ∧
      (stats s.shared.sent)[0]? = some ⟨fileName 0, 0o644⟩ ∧
      s.shared.dataOf 0 = [fileName (2 ^ 32), []] ∧
      ¬ ∃ rest, Service.Served (Sender.bytesOf ⟨none, id, []⟩ (fileName 0))
        (s.shared.dataOf 0 ++ rest) := by
  have hlength : hugeContext.length = 2 ^ 32 + 1 := by
    rw [hugeContext, List.length_map, List.length_range]
  have hfile : ∀ path, Sender.synthetic ⟨none, id, []⟩ path = none := by simp [Sender.synthetic]
  obtain ⟨s, hrun, hs⟩ := exists_walked ⟨none, id, []⟩ (Nat.le_of_eq hlength.symm)
  have hlook : s.shared.files.lookup 0 = some (fileName (2 ^ 32)) :=
    hs.last (2 ^ 32) _ rfl (hugeContext_get (Nat.lt_succ_self _)) rfl
  have hfirst := hugeContext_get (Nat.succ_pos (2 ^ 32))
  obtain ⟨s', hrun', hreceived, hsent⟩ := hs.serve hlook hfirst (Nat.succ_pos _) rfl (hfile _)
    (by decide) (by decide)
  have hdata : s'.shared.dataOf 0 = [fileName (2 ^ 32), []] := by
    simp only [Shared.dataOf, hsent, dataPackets_append, hs.data]
    rfl
  refine ⟨s', hrun.trans hrun', ?_, ?_, hdata, ?_⟩
  · rw [hreceived]
    rfl
  · simp only [hsent, stats_append, hs.front]
    rw [← hlength, List.take_length]
    exact (congrArg (fun l => l[0]?) ((List.append_nil _).trans (List.append_nil _))).trans hfirst
  · -- The first piece would have to begin the first file, whose name begins with another letter.
    rintro ⟨rest, front, hfront, _, hflat⟩
    rw [hdata] at hfront
    cases front with
    | nil => cases (List.cons.inj hfront).1
    | cons piece front =>
        rw [← (List.cons.inj hfront).1, List.flatten_cons, bytesOf_file (hfile _)] at hflat
        have hletter := congrArg (fun bytes => bytes[0]?) hflat
        simp only [List.getElem?_append_left (show 0 < (fileName (2 ^ 32)).length by decide)]
          at hletter
        revert hletter
        decide

end BuilderShim.Fssync
