/-
  Stream/Request.lean --- `UnimplementedBaseStage.Request` (pkg/stream/stage.go), and
  what it leaves in the table.

  Any number of calls run on one stage of a pipeline, together with the goroutine
  that sends (`sendPackets`).  A call does to the pipeline what it allows its users
  to do; so a run of the calls is in particular a run of the pipeline.
-/
import BuilderShim.Stream.Routing

set_option autoImplicit false

namespace BuilderShim.Stream

open BuilderShim.Foundation

inductive RequestErr where
  /-- `ErrSendStreamBlocked` -/
  | sendStreamBlocked
  /-- the error of the context -/
  | ctxErr
  deriving DecidableEq, Repr

/-- `Request`; `d` is the handler it has registered, or found in the table. -/
inductive RequestPoint where
  /-- `b.demux.Load` -/
  | load
  /-- `b.RegisterDemux` -/
  | register
  /-- `b.Send` -/
  | send (d : Nat)
  /-- `b.demux.Delete`, after a send that has failed -/
  | delete (d : Nat)
  /-- `dm.Recv` -/
  | recv (d : Nat)
  /-- `d.closeFn(d.id)` in `Recv` -/
  | close (d : Nat)
  | returned (r : Except RequestErr Msg)

structure Call where
  id : Bytes
  point : RequestPoint

/-- `sendPackets` -/
inductive SendPoint where
  | select
  /-- `p.raw.Send` -/
  | send (id : Bytes)
  | returned

/-- The pipeline, the calls, and the packets on their way out, by build id.  `sent` is a
history of what the host was sent. -/
structure Requests where
  pipeline : Pipeline
  calls : List Call
  sendCh : Chan Bytes 64
  sender : SendPoint
  sent : List Bytes

def Requests.initial (ids : List Bytes) : Requests where
  pipeline := .initial
  calls := ids.map fun id => ⟨id, .load⟩
  sendCh := .empty
  sender := .select
  sent := []

/-- What happens in the pipeline without a call doing it; the context of a call may be
cancelled at any time. -/
def Background : Event → Prop
  | .tau | .arrive _ | .recvError | .cancel | .cancelDemux _ => True
  | .register _ _ _ _ _ | .receive _ _ | .closeDemux _ | .remove _ _ => False

inductive RequestEvent where
  | pipeline (e : Event)
  | sender
  /-- a step of the call that does not end it -/
  | call (k : Nat)
  /-- the call returns -/
  | returns (k : Nat) (r : Except RequestErr Msg)

namespace Requests

def setPoint (s : Requests) (k : Nat) (c : Call) (p : Pipeline) (point : RequestPoint) : Requests :=
  { s with pipeline := p, calls := s.calls.set k { c with point := point } }

/-- One step of the calls on stage `i`. -/
inductive Step (filters : List FilterFn) (i : Nat) (filter : FilterByIDFn) :
    Requests → RequestEvent → Requests → Prop
  | pipeline {s : Requests} {e : Event} {p : Pipeline} (hkind : Background e)
      (h : Pipeline.Step filters s.pipeline e p) :
      Step filters i filter s (.pipeline e) { s with pipeline := p }
  | found {s : Requests} {k d : Nat} {c : Call} (hk : s.calls[k]? = some c)
      (hp : c.point = .load) (h : (s.pipeline.stages i).table.lookup c.id = some d) :
      Step filters i filter s (.call k) (s.setPoint k c s.pipeline (.recv d))
  | missing {s : Requests} {k : Nat} {c : Call} (hk : s.calls[k]? = some c)
      (hp : c.point = .load) (h : (s.pipeline.stages i).table.lookup c.id = none) :
      Step filters i filter s (.call k) (s.setPoint k c s.pipeline .register)
  | register {s : Requests} {k : Nat} {c : Call} {p : Pipeline} (closed : Bool)
      (hk : s.calls[k]? = some c) (hp : c.point = .register)
      (h : Pipeline.Step filters s.pipeline (.register i c.id (filter c.id) true closed) p) :
      Step filters i filter s (.call k) (s.setPoint k c p (.send s.pipeline.demuxes.length))
  | send {s : Requests} {k d : Nat} {c : Call} {ch : Chan Bytes 64} (hk : s.calls[k]? = some c)
      (hp : c.point = .send d) (hsend : s.sendCh.send c.id = some ch) :
      Step filters i filter s (.call k)
        { s.setPoint k c s.pipeline (.recv d) with sendCh := ch }
  | sendTimeout {s : Requests} {k d : Nat} {c : Call} (hk : s.calls[k]? = some c)
      (hp : c.point = .send d) :
      Step filters i filter s (.call k) (s.setPoint k c s.pipeline (.delete d))
  | delete {s : Requests} {k d : Nat} {c : Call} {p : Pipeline} (hk : s.calls[k]? = some c)
      (hp : c.point = .delete d) (h : Pipeline.Step filters s.pipeline (.remove i c.id) p) :
      Step filters i filter s (.returns k (.error .sendStreamBlocked))
        (s.setPoint k c p (.returned (.error .sendStreamBlocked)))
  | recv {s : Requests} {k d : Nat} {c : Call} {m : Msg} {p : Pipeline}
      (hk : s.calls[k]? = some c) (hp : c.point = .recv d)
      (h : Pipeline.Step filters s.pipeline (.receive d m) p) :
      Step filters i filter s (.returns k (.ok m)) (s.setPoint k c p (.returned (.ok m)))
  | recvDone {s : Requests} {k d : Nat} {c : Call} {D : Demultiplexer}
      (hk : s.calls[k]? = some c) (hp : c.point = .recv d) (hd : s.pipeline.demuxes[d]? = some D)
      (hclosed : D.closed = true) :
      Step filters i filter s (.call k) (s.setPoint k c s.pipeline (.close d))
  | close {s : Requests} {k d : Nat} {c : Call} {p : Pipeline} (hk : s.calls[k]? = some c)
      (hp : c.point = .close d) (h : Pipeline.Step filters s.pipeline (.closeDemux d) p) :
      Step filters i filter s (.returns k (.error .ctxErr))
        (s.setPoint k c p (.returned (.error .ctxErr)))
  | senderTake {s : Requests} {id : Bytes} {ch : Chan Bytes 64} (hp : s.sender = .select)
      (hrecv : s.sendCh.recv = some (id, ch)) :
      Step filters i filter s .sender { s with sendCh := ch, sender := .send id }
  | sent {s : Requests} {id : Bytes} (hp : s.sender = .send id) :
      Step filters i filter s .sender { s with sender := .select, sent := s.sent ++ [id] }
  | sendError {s : Requests} {id : Bytes} {p : Pipeline} (hp : s.sender = .send id)
      (h : Pipeline.Step filters s.pipeline .cancel p) :
      Step filters i filter s .sender { s with pipeline := p, sender := .returned }
  | senderDone {s : Requests} (hp : s.sender = .select) (hc : s.pipeline.cancelled = true) :
      Step filters i filter s .sender { s with sender := .returned }

end Requests

/-! ## Calls and their handlers -/

/-- The handler of the call, between its registration and the return. -/
def RequestPoint.handler : RequestPoint → Option Nat
  | .send d | .delete d | .recv d | .close d => some d
  | .load | .register | .returned _ => none

/-- The call has not returned. -/
def RequestPoint.Live (p : RequestPoint) : Prop := ∀ r, p ≠ .returned r

section

variable {filters : List FilterFn} {i : Nat} {filter : FilterByIDFn} {s s' : Requests}
  {e : RequestEvent}

variable {c : Call} {k d : Nat} {ids : List Bytes} {p p' : Pipeline}

/-- How a call returns: its request was not sent, its handler is closed, or the handler has a
packet for it. -/
theorem Requests.Step.of_returns {r : Except RequestErr Msg}
    (hstep : Requests.Step filters i filter s (.returns k r) s') (hk : s.calls[k]? = some c) :
    r = .error .sendStreamBlocked ∨ ∃ d D, c.point.handler = some d ∧
      s.pipeline.demuxes[d]? = some D ∧
      ((r = .error .ctxErr ∧ D.closed = true) ∨
        ∃ m ch, r = .ok m ∧ D.ch.recv = some (m, ch)) := by
  cases hstep with
  | delete _ _ _ => exact .inl rfl
  | @close _ d _ _ hk' hp h =>
      rw [hk] at hk'
      cases hk'
      cases h with
      | closeDemux _ hD hclosed => exact .inr ⟨d, _, by rw [hp]; rfl, hD, .inl ⟨rfl, hclosed⟩⟩
  | @recv _ d _ m _ hk' hp h =>
      rw [hk] at hk'
      cases hk'
      cases h with
      | receive _ hD hrecv => exact .inr ⟨d, _, by rw [hp]; rfl, hD, .inr ⟨m, _, rfl, hrecv⟩⟩

/-- A run of the calls is a run of the pipeline. -/
theorem reach_pipeline {C : Requests → RequestEvent → Prop}
    (hrun : Reach (Requests.Step filters i filter) C (.initial ids) s) :
    Reach (Pipeline.Step filters) (fun _ _ => True) .initial s.pipeline := by
  refine hrun.invariant
    (I := fun s => Reach (Pipeline.Step filters) (fun _ _ => True) .initial s.pipeline)
    (.refl _) fun s e s' h _ hstep => ?_
  cases hstep with
  | pipeline _ hp => exact h.tail trivial hp
  | register _ _ _ hp | delete _ _ hp | recv _ _ hp | close _ _ hp | sendError _ hp =>
      exact h.tail trivial hp
  | _ => exact h

/-- The calls keep their ids. -/
theorem calls_ids_step (h : Requests.Step filters i filter s e s') :
    s'.calls.map Call.id = s.calls.map Call.id := by
  have hset : ∀ {k : Nat} {c : Call} (point : RequestPoint), s.calls[k]? = some c →
      (s.calls.set k { c with point := point }).map Call.id = s.calls.map Call.id := by
    intro k c point hk
    rw [List.map_set]
    refine set_of_getElem? ?_
    rw [List.getElem?_map, hk]
    rfl
  cases h with
  | found hk _ _ | missing hk _ _ | register _ hk _ _ | send hk _ _ | sendTimeout hk _
  | delete hk _ _ | recv hk _ _ | recvDone hk _ _ _ | close hk _ _ => exact hset _ hk
  | _ => rfl

theorem initial_ids (ids : List Bytes) : (Requests.initial ids).calls.map Call.id = ids := by
  simp [Requests.initial, Function.comp_def]

/-- With distinct ids, a call is determined by its id. -/
theorem call_unique (hids : s.calls.map Call.id = ids) (hnodup : ids.Nodup) {k' : Nat} {c' : Call}
    (hk : s.calls[k]? = some c) (hk' : s.calls[k']? = some c') (heq : c.id = c'.id) : k = k' := by
  subst hids
  have h₁ : (s.calls.map Call.id)[k]? = some c.id := by rw [List.getElem?_map, hk]; rfl
  have h₂ : (s.calls.map Call.id)[k']? = some c.id := by rw [List.getElem?_map, hk', heq]; rfl
  exact (List.getElem?_inj (List.getElem?_eq_some_iff.mp h₁).1 hnodup).mp (h₁.trans h₂.symm)

/-! ## What a step of the pipeline leaves alone -/

/-- The same handler, later. -/
structure Demultiplexer.Later (D D' : Demultiplexer) : Prop where
  stage : D'.stage = D.stage
  id : D'.id = D.id
  filter : D'.filter = D.filter
  removes : D'.removes = D.removes
  since : D'.since = D.since
  closed : D.closed = true → D'.closed = true

theorem Demultiplexer.Later.refl (D : Demultiplexer) : D.Later D :=
  ⟨rfl, rfl, rfl, rfl, rfl, fun h => h⟩

/-- Handlers are only added. -/
def Follows (p p' : Pipeline) : Prop :=
  ∀ (d : Nat) (D : Demultiplexer), p.demuxes[d]? = some D →
    ∃ D', p'.demuxes[d]? = some D' ∧ D.Later D'

theorem Follows.refl (p : Pipeline) : Follows p p := fun _ D hd => ⟨D, hd, .refl D⟩

/-- No step takes a handler away or changes what it is. -/
theorem follows_of_step {e : Event} (h : Pipeline.Step filters p e p') :
    Follows p p' := by
  intro d D hd
  have hsame : ∃ D', p.demuxes[d]? = some D' ∧ D.Later D' := ⟨D, hd, .refl D⟩
  cases h with
  | run j _ hrun =>
      cases hrun with
      | accept _ hd' _ _ => exact exists_set hd' (fun h => ⟨h.1, h.2, h.3, h.4, h.5, h.6⟩) hsame
      | _ => exact hsame
  | register _ _ _ _ _ =>
      obtain ⟨D', hD', hlater⟩ := hsame
      exact ⟨D', getElem?_append_some hD', hlater⟩
  | receive _ hd' _ => exact exists_set hd' (fun h => ⟨h.1, h.2, h.3, h.4, h.5, h.6⟩) hsame
  | cancelDemux _ hd' =>
      exact exists_set hd' (fun h => ⟨h.1, h.2, h.3, h.4, h.5, fun _ => rfl⟩) hsame
  | _ => exact hsame

theorem lookup_setTable {j : Nat} {t : Table} {k : Bytes}
    (ht : ∀ k d, t.lookup k = some d → (p.stages j).table.lookup k = some d)
    (h : ((p.setTable j t).stages i).table.lookup k = some d) :
    (p.stages i).table.lookup k = some d := by
  by_cases hj : i = j
  · subst hj
    simp only [Pipeline.setTable, Pipeline.setRun, Function.update_self] at h
    exact ht k d h
  · simpa only [Pipeline.setTable, Pipeline.setRun, Function.update_of_ne hj] using h

theorem run_setTable (p : Pipeline) (j : Nat) (t : Table) (i : Nat) :
    ((p.setTable j t).stages i).run = (p.stages i).run := by
  by_cases hj : i = j
  · subst hj
    simp only [Pipeline.setTable, Pipeline.setRun, Function.update_self]
  · simp only [Pipeline.setTable, Pipeline.setRun, Function.update_of_ne hj]

/-- Only a registration puts something into a table. -/
theorem lookup_of_step {e : Event} (h : Pipeline.Step filters p e p')
    (hreg : ∀ j id f r c, e ≠ .register j id f r c) {k : Bytes}
    (hk : (p'.stages i).table.lookup k = some d) : (p.stages i).table.lookup k = some d := by
  cases h with
  | @process j m ch _ _ =>
      by_cases hj : i = j
      · subst hj
        simpa only [Pipeline.setRun, Function.update_self] using hk
      · simpa only [Pipeline.setRun, Function.update_of_ne hj] using hk
  | @run j ds st _ hrun =>
      by_cases hj : i = j
      · subst hj
        simp only [Pipeline.setRun, Function.update_self] at hk
        cases hrun with
        | visit _ _ | delete _ _ => exact lookup_of_erase hk
        | close _ _ => exact lookup_of_closeFn hk
        | _ => exact hk
      · simpa only [Pipeline.setRun, Function.update_of_ne hj] using hk
  | register j id f r c => exact (hreg j id f r c rfl).elim
  | closeDemux _ _ _ => exact lookup_setTable (fun _ _ h => lookup_of_closeFn h) hk
  | remove _ _ => exact lookup_setTable (fun _ _ h => lookup_of_erase h) hk
  | _ => exact hk

/-- After a registration, the table has the new entry and what it had before. -/
theorem lookup_of_register {id : Bytes} {f : FilterFn} {r c : Bool}
    (h : Pipeline.Step filters p (.register i id f r c) p') {k : Bytes}
    (hk : (p'.stages i).table.lookup k = some d) :
    k = id ∨ (p.stages i).table.lookup k = some d := by
  cases h with
  | register _ _ _ _ _ =>
      by_cases heq : k = id
      · exact .inl heq
      · refine .inr ?_
        simpa [Pipeline.setTable, Pipeline.setRun, AList.lookup_insert_ne heq] using hk

/-! ## What `Run` takes out of the table when it ends -/

/-- The key is still to be deleted, or `Run` has not come to that. -/
def RunPoint.Visits : RunPoint → Bytes → Prop
  | .range left, id => id ∈ left
  | .returned, _ => False
  | _, _ => True

/-- A handler with packets for its call is in the table only as long as `Run` may still delete
it: it is handed packets before `Run` starts to go through the table. -/
def Clears (i : Nat) (p : Pipeline) : Prop :=
  ∀ id d D, (p.stages i).table.lookup id = some d → p.demuxes[d]? = some D →
    D.ch.items = [] ∨ (p.stages i).run.Visits id

/-- `Run` of the stage itself. -/
theorem Clears.own (h : Clears i p) {ds : List Demultiplexer} {st : Stage}
    (hrun : RunStep p.cancelled p.demuxes (p.stages i) ds st) : Clears i (p.setRun i ds st) := by
  intro id d D hlook hd
  simp only [Pipeline.setRun, Function.update_self] at hlook hd ⊢
  cases hrun with
  | done _ _ left hleft =>
      refine .inr (hleft.mem_iff.mpr ?_)
      exact AList.lookup_isSome.mp (Option.isSome_iff_exists.mpr ⟨d, hlook⟩)
  | @visit left hat id' =>
      refine (h id d D (lookup_of_erase hlook) hd).imp_right fun hvisits => ?_
      rw [hat] at hvisits
      refine (List.mem_erase_of_ne ?_).mpr hvisits
      rintro rfl
      rw [AList.lookup_erase] at hlook
      cases hlook
  | rangeEnd hat =>
      refine (h id d D hlook hd).imp_right fun hvisits => ?_
      rw [hat] at hvisits
      cases hvisits
  | _ => exact .inr trivial

/-- No new entry in the table, `Run` where it was, and no new packet for a handler in the table. -/
theorem Clears.of_same (h : Clears i p) (htable : ∀ id d, (p'.stages i).table.lookup id = some d →
      (p.stages i).table.lookup id = some d) (hrun : (p'.stages i).run = (p.stages i).run)
    (hch : ∀ (id : Bytes) (d : Nat) (D' : Demultiplexer), (p.stages i).table.lookup id = some d →
      p'.demuxes[d]? = some D' →
      ∃ D, p.demuxes[d]? = some D ∧ (D.ch.items = [] → D'.ch.items = [])) :
    Clears i p' := by
  intro id d D' hlook hd'
  have hold := htable id d hlook
  obtain ⟨D, hd, hnil⟩ := hch id d D' hold hd'
  rw [hrun]
  exact (h id d D hold hd).imp_left hnil

theorem Clears.of_demuxes (h : Clears i p)
    (htable : ∀ id d, (p'.stages i).table.lookup id = some d →
      (p.stages i).table.lookup id = some d) (hrun : (p'.stages i).run = (p.stages i).run)
    (hdemuxes : p'.demuxes = p.demuxes) : Clears i p' :=
  h.of_same htable hrun fun _ _ D' _ hd => ⟨D', hdemuxes ▸ hd, fun hnil => hnil⟩

theorem Clears.setDemux (h : Clears i p) {D D' : Demultiplexer} (hd : p.demuxes[d]? = some D)
    (hch : D.ch.items = [] → D'.ch.items = []) : Clears i (p.setDemux d D') := by
  refine h.of_same (fun _ _ hl => hl) rfl fun id d' D'' _ hd' => ?_
  rcases getElem?_set_cases hd' with ⟨rfl, rfl⟩ | ⟨_, hold⟩
  · exact ⟨D, hd, hch⟩
  · exact ⟨D'', hold, fun hnil => hnil⟩

/-- A new handler has no packets. -/
theorem Clears.register (h : Clears i p) (j : Nat) (id : Bytes) {D : Demultiplexer}
    (hnew : D.ch.items = []) :
    Clears i { p.setTable j ((p.stages j).table.insert id p.demuxes.length) with
      demuxes := p.demuxes ++ [D] } := by
  intro k d D' hlook hd
  rcases getElem?_append_cases hd with hold | ⟨_, rfl⟩
  · by_cases hij : i = j
    · subst hij
      simp only [Pipeline.setTable, Pipeline.setRun, Function.update_self] at hlook ⊢
      by_cases hk : k = id
      · subst hk
        rw [AList.lookup_insert] at hlook
        cases hlook
        exact absurd (List.getElem?_eq_some_iff.mp hold).1 (Nat.lt_irrefl _)
      · rw [AList.lookup_insert_ne hk] at hlook
        exact h k d D' hlook hold
    · simp only [Pipeline.setTable, Pipeline.setRun, Function.update_of_ne hij] at hlook ⊢
      exact h k d D' hlook hold
  · exact .inl hnew

/-- `Run` of another stage hands its packets to handlers of that stage. -/
theorem Clears.other (h : Clears i p) {j : Nat} (hij : i ≠ j)
    (hsound : Router.Sound Msg.buildId (Msg.stage filters) p.view) {ds : List Demultiplexer}
    {st : Stage} (hrun : RunStep p.cancelled p.demuxes (p.stages j) ds st) :
    Clears i (p.setRun j ds st) := by
  refine h.of_same ?_ ?_ fun id d D' hlook hd' => ?_
  · simp only [Pipeline.setRun, Function.update_of_ne hij, imp_self, implies_true]
  · simp only [Pipeline.setRun, Function.update_of_ne hij]
  · cases hrun with
    | @accept m d' D ch hat hd _ _ =>
        rcases getElem?_set_cases hd' with ⟨rfl, rfl⟩ | ⟨_, hold⟩
        · obtain ⟨H, hH, hlane, _⟩ := hsound.fits.table i id d hlook
          obtain ⟨_, _, H', _, hH', hlane', _⟩ := hsound.fits.held j d (by
            show (p.stages j).run.held = some d
            rw [hat]
            rfl)
          rw [hH] at hH'
          cases hH'
          exact (hij (hlane.symm.trans hlane')).elim
        · exact ⟨D', hold, fun hnil => hnil⟩
    | _ => exact ⟨D', hd', fun hnil => hnil⟩

theorem Clears.step {e : Event} (h : Clears i p)
    (hsound : Router.Sound Msg.buildId (Msg.stage filters) p.view)
    (hstep : Pipeline.Step filters p e p') : Clears i p' := by
  cases hstep with
  | arrive _ _ | recvError _ | cancel => exact h.of_demuxes (fun _ _ hl => hl) rfl rfl
  | @process j m ch _ _ =>
      refine h.of_demuxes (fun id d hl => ?_) ?_ rfl
      · by_cases hj : i = j
        · subst hj
          simpa only [Pipeline.setRun, Function.update_self] using hl
        · simpa only [Pipeline.setRun, Function.update_of_ne hj] using hl
      · by_cases hj : i = j
        · subst hj
          simp only [Pipeline.setRun, Function.update_self]
        · simp only [Pipeline.setRun, Function.update_of_ne hj]
  | @run j ds st hj hrun =>
      by_cases hij : i = j
      · subst hij
        exact h.own hrun
      · exact h.other hij hsound hrun
  | register j id f r c => exact h.register j id rfl
  | receive d hd hrecv =>
      refine h.setDemux hd fun hnil => ?_
      rw [Chan.items_of_recv hrecv] at hnil
      cases hnil
  | cancelDemux d hd => exact h.setDemux hd fun hnil => hnil
  | closeDemux _ _ _ =>
      exact h.of_demuxes (fun _ _ => lookup_setTable fun _ _ hl => lookup_of_closeFn hl)
        (run_setTable ..) rfl
  | remove _ _ =>
      exact h.of_demuxes (fun _ _ => lookup_setTable fun _ _ hl => lookup_of_erase hl)
        (run_setTable ..) rfl

/-- When `Run` has returned, it has deleted every handler that it had packets for. -/
theorem Clears.not_receive (h : Clears i p) (hrun : (p.stages i).run = .returned) {id : Bytes}
    (hlook : (p.stages i).table.lookup id = some d) {m : Msg}
    (hstep : Pipeline.Step filters p (.receive d m) p') : False := by
  cases hstep with
  | receive _ hD hrecv =>
      have hvisits := h id d _ hlook hD
      rw [hrun, Chan.items_of_recv hrecv] at hvisits
      rcases hvisits with hnil | hvisits
      · cases hnil
      · exact hvisits

theorem clears_of_reach {C : Pipeline → Event → Prop}
    (hrun : Reach (Pipeline.Step filters) C .initial p) : Clears i p := by
  have hinv : Reach (Pipeline.Step filters) C .initial p ∧ Clears i p := by
    refine hrun.invariant (I := fun p => Reach (Pipeline.Step filters) C .initial p ∧ Clears i p)
      ⟨.refl _, fun _ _ _ hlook => by cases hlook⟩ fun p e p' h he hstep => ?_
    exact ⟨h.1.tail he hstep, h.2.step (sound_of_reach h.1) hstep⟩
  exact hinv.2

/-! ## Entries of the table -/

/-- Every entry is the handler of a call between its registration and its return, and a call
there has a handler of its own. -/
structure Kept (i : Nat) (s : Requests) : Prop where
  entry : ∀ id d, (s.pipeline.stages i).table.lookup id = some d →
    ∃ (k : Nat) (c : Call), s.calls[k]? = some c ∧ c.id = id ∧ c.point.handler = some d
  own : ∀ (k : Nat) (c : Call) (d : Nat), s.calls[k]? = some c → c.point.handler = some d →
    ∃ D, s.pipeline.demuxes[d]? = some D ∧ D.stage = i ∧ D.id = c.id ∧ D.removes = true

/-- One call moves, and does to the pipeline at most what concerns its own id. -/
theorem Kept.move (h : Kept i s) (hk : s.calls[k]? = some c) {point : RequestPoint}
    (hp : Follows s.pipeline p)
    (htable : ∀ id d, (p.stages i).table.lookup id = some d → id ≠ c.id →
      (s.pipeline.stages i).table.lookup id = some d)
    (hentry : ∀ d, (p.stages i).table.lookup c.id = some d → point.handler = some d)
    (hown : ∀ d, point.handler = some d → c.point.handler = some d ∨
      ∃ D, p.demuxes[d]? = some D ∧ D.stage = i ∧ D.id = c.id ∧ D.removes = true) :
    Kept i (s.setPoint k c p point) where
  entry := by
    intro id d hid
    by_cases heq : id = c.id
    · subst heq
      exact ⟨k, { c with point := point },
        List.getElem?_set_self (List.getElem?_eq_some_iff.mp hk).1, rfl, hentry d hid⟩
    · obtain ⟨k', c', hk', hid', hn⟩ := h.entry id d (htable id d hid heq)
      have hne : k ≠ k' := by
        intro hkk
        subst hkk
        rw [hk] at hk'
        cases hk'
        exact heq hid'.symm
      refine ⟨k', c', ?_, hid', hn⟩
      rw [← hk']
      exact List.getElem?_set_ne hne
  own := by
    have hkeep : ∀ {d : Nat} {id : Bytes},
        (∃ D, s.pipeline.demuxes[d]? = some D ∧ D.stage = i ∧ D.id = id ∧ D.removes = true) →
        ∃ D, p.demuxes[d]? = some D ∧ D.stage = i ∧ D.id = id ∧ D.removes = true := by
      rintro d id ⟨D, hd, hstage, hid, hrem⟩
      obtain ⟨D', hd', hlater⟩ := hp d D hd
      exact ⟨D', hd', hlater.stage.trans hstage, hlater.id.trans hid,
        hlater.removes.trans hrem⟩
    intro k' c' d hk' hd
    rcases getElem?_set_cases hk' with ⟨_, rfl⟩ | ⟨_, hold⟩
    · rcases hown d hd with hsame | hnew
      · exact hkeep (h.own k c d hk hsame)
      · exact hnew
    · exact hkeep (h.own k' c' d hold hd)

/-- With distinct ids, what is in the table for a call is its handler. -/
theorem Kept.handler (h : Kept i s) (hids : s.calls.map Call.id = ids) (hnodup : ids.Nodup)
    (hk : s.calls[k]? = some c) (hlook : (s.pipeline.stages i).table.lookup c.id = some d) :
    c.point.handler = some d := by
  obtain ⟨k', c', hk', hid, hd⟩ := h.entry c.id d hlook
  obtain rfl := call_unique hids hnodup hk' hk hid
  rw [hk] at hk'
  cases hk'
  exact hd

/-- A step of the call on its way to the return, that leaves the pipeline alone. -/
theorem Kept.advance (h : Kept i s) (hids : s.calls.map Call.id = ids) (hnodup : ids.Nodup)
    (hk : s.calls[k]? = some c) {point : RequestPoint} (hpoint : point.handler = c.point.handler) :
    Kept i (s.setPoint k c s.pipeline point) := by
  refine h.move hk (.refl _) (fun _ _ h _ => h) (fun d hd => ?_) fun d hd => .inl ?_
  · exact hpoint.trans (h.handler hids hnodup hk hd)
  · exact hpoint.symm.trans hd

/-- The call registers its handler. -/
theorem Kept.register (h : Kept i s) (hk : s.calls[k]? = some c) {f : FilterFn} {closed : Bool}
    (hstep : Pipeline.Step filters s.pipeline (.register i c.id f true closed) p) :
    Kept i (s.setPoint k c p (.send s.pipeline.demuxes.length)) := by
  refine h.move hk (follows_of_step hstep) (fun id d hid hne => ?_) (fun d hd => ?_)
    fun d hd => .inr ?_
  · rcases lookup_of_register hstep hid with heq | hold
    · exact (hne heq).elim
    · exact hold
  · cases hstep with
    | register _ _ _ _ _ =>
        simp only [Pipeline.setTable, Pipeline.setRun, Function.update_self,
          AList.lookup_insert] at hd
        exact hd
  · cases hd
    cases hstep with
    | register _ _ _ _ _ => exact ⟨_, List.getElem?_concat_length, rfl, rfl, rfl⟩

/-- The call returns, and its id is not in the table then. -/
theorem Kept.leave (h : Kept i s) (hk : s.calls[k]? = some c) (hp : Follows s.pipeline p)
    (htable : ∀ id d, (p.stages i).table.lookup id = some d →
      (s.pipeline.stages i).table.lookup id = some d)
    (hgone : (p.stages i).table.lookup c.id = none) (r : Except RequestErr Msg) :
    Kept i (s.setPoint k c p (.returned r)) := by
  refine h.move hk hp (fun id d h _ => htable id d h) (fun d hd => ?_) fun d hd => ?_
  · rw [hgone] at hd
    cases hd
  · cases hd

/-- A step of the pipeline alone. -/
theorem Kept.background (h : Kept i s) {e : Event} (hp : Pipeline.Step filters s.pipeline e p)
    (hreg : ∀ j id f r c, e ≠ .register j id f r c) :
    Kept i { s with pipeline := p } where
  entry := fun id d hid => h.entry id d (lookup_of_step hp hreg hid)
  own := by
    intro k c d hk hd
    obtain ⟨D, hD, hstage, hid, hrem⟩ := h.own k c d hk hd
    obtain ⟨D', hD', hlater⟩ := follows_of_step hp d D hD
    exact ⟨D', hD', hlater.stage.trans hstage, hlater.id.trans hid, hlater.removes.trans hrem⟩

/-- The id of a call that has not registered its handler is not in the table. -/
theorem Kept.not_found (h : Kept i s) (hids : s.calls.map Call.id = ids) (hnodup : ids.Nodup)
    (hk : s.calls[k]? = some c) (hp : c.point.handler = none) :
    (s.pipeline.stages i).table.lookup c.id = none := by
  cases hlook : (s.pipeline.stages i).table.lookup c.id with
  | none => rfl
  | some d => cases hp.symm.trans (h.handler hids hnodup hk hlook)

/-- A call takes an answer only when `Run` of the stage has returned. -/
def AnsweredLate (i : Nat) (s : Requests) : RequestEvent → Prop
  | .returns _ (.ok _) => (s.pipeline.stages i).run = .returned
  | _ => True

theorem Kept.step (h : Kept i s) (hids : s.calls.map Call.id = ids) (hnodup : ids.Nodup)
    (hclears : Clears i s.pipeline) (he : AnsweredLate i s e)
    (hstep : Requests.Step filters i filter s e s') : Kept i s' := by
  cases hstep with
  | @pipeline e p hkind hp =>
      refine h.background hp fun j id f r c heq => ?_
      subst heq
      exact hkind
  | found hk hp hlook =>
      rw [h.not_found hids hnodup hk (by rw [hp]; rfl)] at hlook
      cases hlook
  | @missing k c hk hp _ =>
      refine h.move hk (.refl _) (fun _ _ h _ => h) (fun d hd => ?_) fun d hd => by cases hd
      rw [h.not_found hids hnodup hk (by rw [hp]; rfl)] at hd
      cases hd
  | register _ hk _ hstep => exact h.register hk hstep
  | send hk hp _ =>
      have hnext : Kept i (s.setPoint _ _ s.pipeline (.recv _)) :=
        h.advance hids hnodup hk (by rw [hp]; rfl)
      exact ⟨hnext.entry, hnext.own⟩
  | sendTimeout hk hp | recvDone hk hp _ _ => exact h.advance hids hnodup hk (by rw [hp]; rfl)
  | @delete k d c p hk hp hstep =>
      refine h.leave hk (follows_of_step hstep)
        (fun id d hid => lookup_of_step hstep (by simp) hid) ?_ _
      cases hstep with
      | remove _ _ => simp [Pipeline.setTable, Pipeline.setRun]
  | @recv k d c m p hk hp hstep =>
      have hsame := fun id d => lookup_of_step (k := id) (d := d) (i := i) hstep (by simp)
      refine h.leave hk (follows_of_step hstep) hsame (Option.eq_none_iff_forall_ne_some.mpr ?_) _
      intro d' hlook
      have hold := hsame c.id d' hlook
      have hd := h.handler hids hnodup hk hold
      rw [hp] at hd
      cases hd
      exact hclears.not_receive he hold hstep
  | @close k d c p hk hp hstep =>
      refine h.leave hk (follows_of_step hstep)
        (fun id d hid => lookup_of_step hstep (by simp) hid) ?_ _
      obtain ⟨D, hD, hstage, hid, hrem⟩ := h.own k c d hk (by rw [hp]; rfl)
      cases hstep with
      | closeDemux _ hd _ =>
          rw [hD] at hd
          cases hd
          subst hstage
          simp [Pipeline.setTable, Pipeline.setRun, Demultiplexer.closeFn, hrem, hid]
  | senderTake _ _ | sent _ | senderDone _ _ => exact ⟨h.entry, h.own⟩
  | sendError _ hp =>
      have hnext := h.background hp (by simp)
      exact ⟨hnext.entry, hnext.own⟩

end

/-- In every run in which no call takes an answer before `Run` of the stage has returned, the
ids in the table are those of calls that have not returned. -/
theorem table_of_requests (filters : List FilterFn) (i : Nat) (filter : FilterByIDFn)
    (ids : List Bytes) (hnodup : ids.Nodup) (s : Requests)
    (hrun : Reach (Requests.Step filters i filter) (AnsweredLate i) (.initial ids) s) :
    ∀ id ∈ (s.pipeline.stages i).table, ∃ c ∈ s.calls, c.id = id ∧ c.point.Live := by
  have hinv : Kept i s ∧ s.calls.map Call.id = ids ∧
      Reach (Requests.Step filters i filter) (AnsweredLate i) (.initial ids) s := by
    refine hrun.invariant (I := fun s => Kept i s ∧ s.calls.map Call.id = ids ∧
        Reach (Requests.Step filters i filter) (AnsweredLate i) (.initial ids) s)
      ⟨⟨(fun id d hid => nomatch hid), fun k c d hk hd => ?_⟩, initial_ids ids, .refl _⟩ ?_
    · rw [Requests.initial, List.getElem?_map, Option.map_eq_some_iff] at hk
      obtain ⟨id, _, rfl⟩ := hk
      cases hd
    · intro s e s' h he hstep
      have hclears : Clears i s.pipeline := clears_of_reach (reach_pipeline h.2.2)
      exact ⟨h.1.step h.2.1 hnodup hclears he hstep, (calls_ids_step hstep).trans h.2.1,
        h.2.2.tail he hstep⟩
  intro id hid
  obtain ⟨d, hd⟩ := Option.isSome_iff_exists.mp (AList.lookup_isSome.mpr hid)
  obtain ⟨k, c, hk, hcid, hn⟩ := hinv.1.entry id d hd
  refine ⟨c, List.mem_of_getElem? hk, hcid, fun r hr => ?_⟩
  rw [hr] at hn
  cases hn

/-- The answer to the request `r`. -/
def contentAnswer : ClientStream :=
  ⟨lit "r", some (.imageTransfer
    { id := lit "r", data := [], complete := true,
      metadata := AList.singleton (lit "stage") (lit "content-store") })⟩

/-- The pipeline is cancelled before the call takes its answer: `Run` has emptied the table. -/
theorem table_of_requests_one :
    ∃ s, Reach (Requests.Step transferFilters 0 filterByBuildID) (AnsweredLate 0)
        (.initial [lit "r"]) s ∧
      s.calls = [⟨lit "r", .returned (.ok ⟨0, contentAnswer⟩)⟩] ∧
      ∀ id ∈ (s.pipeline.stages 0).table, ∃ c ∈ s.calls, c.id = id ∧ c.point.Live := by
  have h : Reach (Requests.Step transferFilters 0 filterByBuildID) (AnsweredLate 0)
      (.initial [lit "r"]) (.initial [lit "r"]) := .refl _
  have h := h.tail (by trivial) (.missing (k := 0) rfl rfl rfl)
  have h := h.tail (by trivial) (.register false (k := 0) rfl rfl (.register _ _ _ _ _))
  have h := h.tail (by trivial) (.send (k := 0) rfl rfl rfl)
  have h := h.tail (by trivial) (.pipeline (by trivial) (.arrive contentAnswer rfl))
  have h := h.tail (by trivial) (.pipeline (by trivial) (.process rfl rfl))
  have h := h.tail (by trivial) (.pipeline (by trivial) (.run 0 (by decide) (.take rfl rfl)))
  have h := h.tail (by trivial) (.pipeline (by trivial) (.run 0 (by decide) (.load rfl rfl)))
  have h := h.tail (by trivial) (.pipeline (by trivial) (.run 0 (by decide) (.opened rfl rfl rfl)))
  have h := h.tail (by trivial)
    (.pipeline (by trivial) (.run 0 (by decide) (.accept rfl rfl rfl rfl)))
  have h := h.tail (by trivial) (.pipeline (by trivial) .cancel)
  have h := h.tail (by trivial)
    (.pipeline (by trivial) (.run 0 (by decide) (.done rfl rfl [lit "r"] (.refl _))))
  have h := h.tail (by trivial)
    (.pipeline (by trivial) (.run 0 (by decide) (.visit rfl (lit "r"))))
  have h := h.tail (by trivial) (.pipeline (by trivial) (.run 0 (by decide) (.rangeEnd rfl)))
  have h := h.tail (by rfl) (.recv (k := 0) rfl rfl (.receive _ rfl rfl))
  exact ⟨_, h, rfl, table_of_requests _ _ _ _ (List.nodup_singleton _) _ h⟩

/-- A call that is answered: it has returned, and its id is still in the table. -/
theorem table_keeps_answered :
    ∃ s, Reach (Requests.Step transferFilters 0 filterByBuildID) (fun _ _ => True)
        (.initial [lit "r"]) s ∧
      s.calls = [⟨lit "r", .returned (.ok ⟨0, contentAnswer⟩)⟩] ∧
      lit "r" ∈ (s.pipeline.stages 0).table := by
  have h : Reach (Requests.Step transferFilters 0 filterByBuildID) (fun _ _ => True)
      (.initial [lit "r"]) (.initial [lit "r"]) := .refl _
  have h := h.tail trivial (.missing (k := 0) rfl rfl rfl)
  have h := h.tail trivial (.register false (k := 0) rfl rfl (.register _ _ _ _ _))
  have h := h.tail trivial (.send (k := 0) rfl rfl rfl)
  have h := h.tail trivial (.senderTake rfl rfl)
  have h := h.tail trivial (.sent rfl)
  have h := h.tail trivial (.pipeline (by trivial) (.arrive contentAnswer rfl))
  have h := h.tail trivial (.pipeline (by trivial) (.process rfl rfl))
  have h := h.tail trivial (.pipeline (by trivial) (.run 0 (by decide) (.take rfl rfl)))
  have h := h.tail trivial (.pipeline (by trivial) (.run 0 (by decide) (.load rfl rfl)))
  have h := h.tail trivial (.pipeline (by trivial) (.run 0 (by decide) (.opened rfl rfl rfl)))
  have h := h.tail trivial (.pipeline (by trivial) (.run 0 (by decide) (.accept rfl rfl rfl rfl)))
  have h := h.tail trivial (.recv (k := 0) rfl rfl (.receive _ rfl rfl))
  exact ⟨_, h, rfl, AList.lookup_isSome.mp rfl⟩

end BuilderShim.Stream
