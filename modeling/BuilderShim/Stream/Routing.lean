/-
  Stream/Routing.lean --- the pipeline delivers packets without loss, mixing or
  reordering.

  Seen from outside (`Pipeline.view`) the pipeline is a router: the lane of a stage
  is the packet its `Run` is busy with, its channel, and the packet the receiving
  goroutine has for it.  Every step of every goroutine is a step of the router, so
  what holds of routers holds of the pipeline.
-/
import BuilderShim.Foundation.Router
import BuilderShim.Stream.Pipeline

set_option autoImplicit false

namespace BuilderShim.Stream

open BuilderShim.Foundation

/-! ## The pipeline as a router -/

/-- The packet `Run` has taken and not yet decided on. -/
def RunPoint.hand : RunPoint → List Msg
  | .load m | .check m _ | .accept m _ => [m]
  | .select | .delete _ _ | .close _ _ | .range _ | .returned => []

/-- The handler it was looked up for. -/
def RunPoint.held : RunPoint → Option Nat
  | .check _ d | .accept _ d => some d
  | .select | .load _ | .delete _ _ | .close _ _ | .range _ | .returned => none

/-- The packet the receiving goroutine has for the stage. -/
def ReceivePoint.hand (i : Nat) : ReceivePoint → List Msg
  | .process j m => if j = i then [m] else []
  | .recv | .returned => []

/-- What is on its way to the handlers of a stage, oldest first. -/
def Pipeline.pending (s : Pipeline) (i : Nat) : List Msg :=
  (s.stages i).run.hand ++ (s.stages i).recvCh.items ++ s.receiver.hand i

def Demultiplexer.view (D : Demultiplexer) : Handler Msg Bytes where
  lane := D.stage
  key := D.id
  wants := fun m => (D.filter m.packet).isNone
  closed := D.closed
  accepted := D.accepted
  since := D.since

def Pipeline.view (s : Pipeline) : Router Msg Bytes where
  arrived := s.arrived
  pending := s.pending
  held := fun i => (s.stages i).run.held
  table := fun i k => (s.stages i).table.lookup k
  handlers := s.demuxes.map Demultiplexer.view

/-- The key of a packet. -/
def Msg.buildId (m : Msg) : Bytes := m.packet.buildId

/-- The stage that takes a packet. -/
def Msg.stage (filters : List FilterFn) (m : Msg) : Option Nat := dispatch filters m.packet

/-- A run of the router. -/
abbrev Routes (filters : List FilterFn) : Router Msg Bytes → Router Msg Bytes → Prop :=
  Relation.ReflTransGen (Router.Step Msg.buildId (Msg.stage filters))

section

variable {filters : List FilterFn} {s : Pipeline}

variable {D : Demultiplexer} {d i : Nat} {st : Stage} {m : Msg}

theorem view_handler (h : s.demuxes[d]? = some D) :
    s.view.handlers[d]? = some D.view := by
  simp only [Pipeline.view, List.getElem?_map, h, Option.map_some]

/-- Changing one stage changes the router there only. -/
theorem view_setRun (s : Pipeline) (i : Nat) (ds : List Demultiplexer) (st : Stage) :
    (s.setRun i ds st).view = { s.view with
      pending := Function.update s.view.pending i
        (st.run.hand ++ st.recvCh.items ++ s.receiver.hand i)
      held := Function.update s.view.held i st.run.held
      table := Function.update s.view.table i fun k => st.table.lookup k
      handlers := ds.map Demultiplexer.view } := by
  refine Router.ext rfl ?_ ?_ ?_ rfl
  · refine Function.eq_update_iff.mpr ⟨?_, fun j hj => ?_⟩
    · simp [Pipeline.view, Pipeline.setRun, Pipeline.pending]
    · simp [Pipeline.view, Pipeline.setRun, Pipeline.pending, Function.update_of_ne hj]
  · refine Function.eq_update_iff.mpr ⟨?_, fun j hj => ?_⟩
    · simp [Pipeline.view, Pipeline.setRun]
    · simp [Pipeline.view, Pipeline.setRun, Function.update_of_ne hj]
  · refine Function.eq_update_iff.mpr ⟨?_, fun j hj => ?_⟩
    · simp [Pipeline.view, Pipeline.setRun]
    · simp [Pipeline.view, Pipeline.setRun, Function.update_of_ne hj]

theorem lookup_of_erase {t : Table} {id k : Bytes} (h : (t.erase id).lookup k = some d) :
    t.lookup k = some d := by
  by_cases hk : k = id
  · subst hk
    rw [AList.lookup_erase] at h
    cases h
  · rwa [AList.lookup_erase_ne hk] at h

theorem lookup_of_closeFn {t : Table} {k : Bytes} (h : (D.closeFn t).lookup k = some d) :
    t.lookup k = some d := by
  unfold Demultiplexer.closeFn at h
  split at h
  · exact lookup_of_erase h
  · exact h

/-- The stage has moved on, but its packets are where they were and its table has nothing
new. -/
theorem routes_forget (hlane : st.run.hand ++ st.recvCh.items =
      (s.stages i).run.hand ++ (s.stages i).recvCh.items)
    (hheld : st.run.held = (s.stages i).run.held)
    (htable : ∀ k d, st.table.lookup k = some d → (s.stages i).table.lookup k = some d) :
    Routes filters s.view (s.setStage i st).view := by
  have hview : (s.setStage i st).view = { s.view with
      table := Function.update s.view.table i fun k => st.table.lookup k } := by
    rw [view_setRun, hlane, hheld]
    refine Router.ext rfl ?_ ?_ rfl rfl
    · exact Function.update_eq_self i s.view.pending
    · exact Function.update_eq_self i s.view.held
  rw [hview]
  refine .single (.forget _ fun j k d h => ?_)
  by_cases hj : j = i
  · subst hj
    rw [Function.update_self] at h
    exact htable k d h
  · rwa [Function.update_of_ne hj] at h

/-- The same, with the table as it was. -/
theorem routes_same (hlane : st.run.hand ++ st.recvCh.items =
      (s.stages i).run.hand ++ (s.stages i).recvCh.items)
    (hheld : st.run.held = (s.stages i).run.held) (htable : st.table = (s.stages i).table) :
    Routes filters s.view (s.setStage i st).view :=
  routes_forget hlane hheld fun _ _ h => htable ▸ h

/-- The lane of a stage whose `Run` has a packet. -/
theorem pending_of_hand (h : (s.stages i).run.hand = [m]) :
    s.view.pending i = m :: ((s.stages i).recvCh.items ++ s.receiver.hand i) := by
  simp only [Pipeline.view, Pipeline.pending, h, List.cons_append, List.nil_append]

/-- The view when `Run` is done with its packet. -/
theorem view_next (s : Pipeline) (i : Nat) {run : RunPoint} (hhand : run.hand = [])
    (hheld : run.held = none) :
    (s.setStage i { s.stages i with run := run }).view = { s.view with
      pending := Function.update s.view.pending i
        ((s.stages i).recvCh.items ++ s.receiver.hand i)
      held := Function.update s.view.held i none } := by
  rw [view_setRun, hhand, hheld]
  exact Router.ext rfl rfl rfl (Function.update_eq_self i s.view.table) rfl

/-- The packet is dropped, by a handler that is closed or does not want it. -/
theorem routes_drop {run : RunPoint} (hhand : (s.stages i).run.hand = [m])
    (hheld : (s.stages i).run.held = some d) (hd : s.demuxes[d]? = some D)
    (hwhy : D.closed = true ∨ (D.filter m.packet).isNone = false) (hhand' : run.hand = [])
    (hheld' : run.held = none) :
    Routes filters s.view (s.setStage i { s.stages i with run := run }).view := by
  rw [view_next s i hhand' hheld']
  exact .single (.drop (pending_of_hand hhand) hheld (view_handler hd) hwhy)

/-- The packet goes into the channel of its handler. -/
theorem routes_accept {ch : Chan Msg 32} (hhand : (s.stages i).run.hand = [m])
    (hheld : (s.stages i).run.held = some d) (hd : s.demuxes[d]? = some D)
    (hfilter : D.filter m.packet = none) (hsend : D.ch.send m = some ch) :
    Routes filters s.view (s.setRun i (s.demuxes.set d { D with ch := ch })
      { s.stages i with run := .select }).view := by
  have haccepted : Demultiplexer.view { D with ch := ch } =
      { D.view with accepted := D.view.accepted ++ [m] } := by
    simp [Demultiplexer.view, Demultiplexer.accepted, Chan.items_of_send hsend]
  have hview : (s.setRun i (s.demuxes.set d { D with ch := ch })
        { s.stages i with run := .select }).view =
      { s.view with
        pending := Function.update s.view.pending i
          ((s.stages i).recvCh.items ++ s.receiver.hand i)
        held := Function.update s.view.held i none
        handlers := s.view.handlers.set d { D.view with accepted := D.view.accepted ++ [m] } } := by
    rw [view_setRun, List.map_set, haccepted]
    exact Router.ext rfl rfl rfl (Function.update_eq_self i s.view.table) rfl
  rw [hview]
  refine .single (.deliver (pending_of_hand hhand) hheld (view_handler hd) ?_)
  simp only [Demultiplexer.view, hfilter, Option.isNone_none]

/-- Every step of `Run` is one of the router. -/
theorem routes_run {ds : List Demultiplexer}
    (h : RunStep s.cancelled s.demuxes (s.stages i) ds st) :
    Routes filters s.view (s.setRun i ds st).view := by
  cases h with
  | done hrun _ _ _ | rangeEnd hrun | opened hrun _ _ =>
      exact routes_same (by simp [hrun, RunPoint.hand]) (by simp [hrun, RunPoint.held]) rfl
  | take hrun hrecv =>
      refine routes_same ?_ (by simp [hrun, RunPoint.held]) rfl
      simp [hrun, RunPoint.hand, Chan.items_of_recv hrecv]
  | visit hrun _ | delete hrun _ =>
      exact routes_forget (by simp [hrun, RunPoint.hand]) (by simp [hrun, RunPoint.held])
        fun k d h => lookup_of_erase h
  | close hrun _ =>
      exact routes_forget (by simp [hrun, RunPoint.hand]) (by simp [hrun, RunPoint.held])
        fun k d h => lookup_of_closeFn h
  | closed hrun hd hclosed | acceptDone hrun hd _ hclosed =>
      exact routes_drop (by rw [hrun]; rfl) (by rw [hrun]; rfl) hd (.inl hclosed) rfl rfl
  | ignore hrun hd hfilter =>
      exact routes_drop (by rw [hrun]; rfl) (by rw [hrun]; rfl) hd (.inr (by rw [hfilter]; rfl))
        rfl rfl
  | @missing m hrun hlookup =>
      have hhand : (s.stages i).run.hand = [m] := by rw [hrun]; rfl
      have hheld : s.view.held i = none := by
        simp only [Pipeline.view, hrun]
        rfl
      have hstep : Routes filters s.view _ :=
        .single (.dropMissing (pending_of_hand hhand) hheld hlookup)
      rw [view_next s i rfl rfl, ← hheld, Function.update_eq_self]
      exact hstep
  | @load m d hrun hlookup =>
      have hhand : (s.stages i).run.hand = [m] := by rw [hrun]; rfl
      have hheld : s.view.held i = none := by
        simp only [Pipeline.view, hrun]
        rfl
      have hview : (s.setStage i { s.stages i with run := .check m d }).view =
          { s.view with held := Function.update s.view.held i (some d) } := by
        rw [view_setRun]
        refine Router.ext rfl ?_ rfl (Function.update_eq_self i s.view.table) rfl
        simp only [RunPoint.hand, ← hhand]
        exact Function.update_eq_self i s.view.pending
      rw [hview]
      exact .single (.load (pending_of_hand hhand) hheld hlookup)
  | accept hrun hd hfilter hsend =>
      exact routes_accept (by rw [hrun]; rfl) (by rw [hrun]; rfl) hd hfilter hsend

/-- The packets are numbered in the order they arrive. -/
def Numbered (s : Pipeline) : Prop := s.arrived.map Msg.serial = List.range s.arrived.length

theorem Numbered.step {s' : Pipeline} {e : Event} (hs : Numbered s)
    (h : Pipeline.Step filters s e s') : Numbered s' := by
  cases h with
  | arrive _ _ =>
      unfold Numbered at hs ⊢
      simp only [Pipeline.receive, List.map_append, hs, List.length_append, List.length_singleton,
        List.map_cons, List.map_nil, List.range_succ]
  | _ => exact hs

theorem Numbered.fresh (hs : Numbered s) (c : ClientStream) :
    (⟨s.arrived.length, c⟩ : Msg) ∉ s.arrived := by
  intro hmem
  have hserial : s.arrived.length ∈ s.arrived.map Msg.serial :=
    List.mem_map_of_mem (f := Msg.serial) hmem
  rw [hs] at hserial
  exact Nat.lt_irrefl _ (List.mem_range.mp hserial)

theorem hand_after (m : Msg) (dst : Option Nat) (i : Nat) :
    (ReceivePoint.after m dst).hand i = if dst = some i then [m] else [] := by
  cases dst with
  | none => rfl
  | some j => simp [ReceivePoint.after, ReceivePoint.hand]

/-- The table after a registration. -/
theorem view_register (s : Pipeline) (i : Nat) (id : Bytes) (filter : FilterFn)
    (removes closed : Bool) :
    { s.setTable i ((s.stages i).table.insert id s.demuxes.length) with
        demuxes := s.demuxes ++ [newDemux i id filter removes closed s.arrived.length] }.view =
      { s.view with
        table := Router.store s.view.table i id s.view.handlers.length
        handlers := s.view.handlers ++
          [⟨i, id, fun m => (filter m.packet).isNone, closed, [], s.view.arrived.length⟩] } := by
  have hset := view_setRun s i s.demuxes
    { s.stages i with table := (s.stages i).table.insert id s.demuxes.length }
  refine Router.ext rfl ?_ ?_ ?_ ?_
  · exact (congrArg Router.pending hset).trans (Function.update_eq_self i s.view.pending)
  · exact (congrArg Router.held hset).trans (Function.update_eq_self i s.view.held)
  · refine (congrArg Router.table hset).trans ?_
    funext j k
    unfold Router.store
    by_cases hj : j = i
    · subst hj
      by_cases hk : k = id
      · subst hk
        simp [Pipeline.view]
      · simp [Pipeline.view, hk, AList.lookup_insert_ne hk]
    · simp [hj]
  · simp [Pipeline.view, newDemux, Demultiplexer.view, Demultiplexer.accepted]

/-- A packet that the receiver hands to a stage stays in its lane. -/
theorem view_process {ch : Chan Msg 4} (hrecv : s.receiver = .process i m)
    (hsend : (s.stages i).recvCh.send m = some ch) :
    { s.setStage i { s.stages i with recvCh := ch } with receiver := .recv }.view = s.view := by
  have hset := view_setRun { s with receiver := .recv } i s.demuxes { s.stages i with recvCh := ch }
  refine Router.ext rfl ((congrArg Router.pending hset).trans ?_)
    ((congrArg Router.held hset).trans (Function.update_eq_self i s.view.held))
    ((congrArg Router.table hset).trans (Function.update_eq_self i s.view.table)) rfl
  refine Function.update_eq_iff.mpr ⟨?_, fun j hj => ?_⟩
  · simp [Pipeline.view, Pipeline.pending, hrecv, ReceivePoint.hand, Chan.items_of_send hsend]
  · have hne : ¬ i = j := fun h => hj h.symm
    simp [Pipeline.view, Pipeline.pending, hrecv, ReceivePoint.hand, hne]

/-- Every step of the pipeline, and of its users, is one of the router. -/
theorem routes_step {s' : Pipeline} {e : Event} (hs : Numbered s)
    (h : Pipeline.Step filters s e s') : Routes filters s.view s'.view := by
  cases h with
  | arrive c hrecv =>
      refine .single ?_
      have hview : (s.receive filters c).view =
          { s.view with
            arrived := s.view.arrived ++ [⟨s.arrived.length, c⟩]
            pending := Router.enqueue s.view.pending ⟨s.arrived.length, c⟩
              (Msg.stage filters ⟨s.arrived.length, c⟩) } := by
        refine Router.ext rfl ?_ rfl rfl rfl
        funext j
        dsimp only
        rw [Router.enqueue_eq]
        simp only [Pipeline.view, Pipeline.pending, Pipeline.receive, hrecv, Msg.stage]
        rw [hand_after]
        simp only [ReceivePoint.hand, List.append_nil]
        congr
      rw [hview]
      exact .arrive _ (hs.fresh c)
  | recvError hrecv =>
      have hview : { s with receiver := .returned, cancelled := true }.view = s.view := by
        refine Router.ext rfl ?_ rfl rfl rfl
        funext j
        simp only [Pipeline.view, Pipeline.pending, hrecv]
        rfl
      rw [hview]
  | @process i m ch hrecv hsend =>
      rw [view_process hrecv hsend]
  | run _ _ hrun => exact routes_run hrun
  | cancel => exact .refl
  | register i id filter removes closed =>
      rw [view_register]
      exact .single (.register i id _ closed)
  | @receive d m D ch hd hrecv =>
      have hsame : Demultiplexer.view { D with ch := ch, received := D.received ++ [m] } =
          D.view := by
        simp [Demultiplexer.view, Demultiplexer.accepted, Chan.items_of_recv hrecv]
      have hview : (s.setDemux d { D with ch := ch, received := D.received ++ [m] }).view =
          s.view := by
        refine Router.ext rfl rfl rfl rfl ?_
        simp only [Pipeline.view, Pipeline.setDemux, List.map_set, hsame]
        exact set_of_getElem? (view_handler hd)
      rw [hview]
  | @cancelDemux d D hd =>
      have hview : (s.setDemux d { D with closed := true }).view =
          { s.view with handlers := s.view.handlers.set d { D.view with closed := true } } := by
        refine Router.ext rfl rfl rfl rfl ?_
        simp only [Pipeline.view, Pipeline.setDemux, List.map_set]
        rfl
      rw [hview]
      exact .single (.close (view_handler hd))
  | @closeDemux d D hd hclosed =>
      exact routes_forget rfl rfl fun k d h => lookup_of_closeFn h
  | remove i id => exact routes_forget rfl rfl fun k d h => lookup_of_erase h

/-- What holds of routers, in every state of every run of the pipeline. -/
theorem sound_of_reach {C : Pipeline → Event → Prop}
    (hrun : Reach (Pipeline.Step filters) C .initial s) :
    Router.Sound Msg.buildId (Msg.stage filters) s.view := by
  have hinv : Numbered s ∧ Routes filters Pipeline.initial.view s.view :=
    hrun.invariant (I := fun s => Numbered s ∧ Routes filters Pipeline.initial.view s.view)
      ⟨rfl, .refl⟩ fun _ _ _ h _ hstep => ⟨h.1.step hstep, h.2.trans (routes_step h.1 hstep)⟩
  have hinit : Pipeline.initial.view = Router.initial := Router.ext rfl rfl rfl rfl rfl
  exact Router.Sound.initial.run (hinit ▸ hinv.2)

end

/-! ## Delivery -/

/-- The stage's filter accepts the packet, it has the handler's build id, and the handler's
own filter accepts it. -/
def Meant (f : FilterFn) (D : Demultiplexer) (m : Msg) : Prop :=
  f m.packet = none ∧ m.packet.buildId = D.id ∧ D.filter m.packet = none

instance (f : FilterFn) (D : Demultiplexer) (m : Msg) : Decidable (Meant f D m) := by
  unfold Meant
  infer_instance

/-- No packet with the build id had arrived when the handler was registered. -/
def Pipeline.Early (s : Pipeline) (D : Demultiplexer) : Prop :=
  ∀ m ∈ s.arrived.take D.since, m.packet.buildId ≠ D.id

section

variable {filters : List FilterFn} {s : Pipeline}

variable {f : FilterFn}

/-- With disjoint filters the stage that takes a packet is the one whose filter does. -/
theorem dispatch_eq_some_iff (hdis : DisjointFilters filters) {i : Nat} (hf : filters[i]? = some f)
    (c : ClientStream) : dispatch filters c = some i ↔ f c = none := by
  unfold dispatch
  rw [List.findIdx?_eq_some_iff_getElem]
  obtain ⟨hlt, hget⟩ := List.getElem?_eq_some_iff.mp hf
  constructor
  · rintro ⟨_, hnone, _⟩
    rw [hget] at hnone
    exact Option.isNone_iff_eq_none.mp hnone
  · intro hnone
    refine ⟨hlt, by rw [hget, hnone]; rfl, fun j hj => ?_⟩
    intro hj'
    have hpair := List.pairwise_iff_getElem.mp hdis j i (Nat.lt_trans hj hlt) hlt hj
    rw [hget] at hpair
    exact hpair c (Option.isNone_iff_eq_none.mp hj') hnone

theorem mine_iff (hdis : DisjointFilters filters) {D : Demultiplexer}
    (hf : filters[D.stage]? = some f) (m : Msg) :
    Router.Mine Msg.buildId (Msg.stage filters) D.view m ↔ Meant f D m := by
  unfold Router.Mine Meant Msg.stage Demultiplexer.view
  simp only [dispatch_eq_some_iff hdis hf, Option.isNone_iff_eq_none]
  rfl

/-- Among the packets of a list, the router and the filters mean the same. -/
theorem filter_mine (hdis : DisjointFilters filters) {D : Demultiplexer}
    (hf : filters[D.stage]? = some f) (ms : List Msg) :
    ms.filter (Router.Mine Msg.buildId (Msg.stage filters) D.view) = ms.filter (Meant f D) :=
  List.filter_congr fun m _ => decide_eq_decide.mpr (mine_iff hdis hf m)

end

/-- A handler that is registered before the first packet with its build id, and not
cancelled, receives a beginning of exactly the packets meant for it, in the order they
arrive; as long as it is in the table, the rest is in its channel or on its way.  No packet
is received by two handlers. -/
theorem routing (filters : List FilterFn) (hdis : DisjointFilters filters) (s : Pipeline)
    (hrun : Reach (Pipeline.Step filters) (fun _ _ => True) .initial s) :
    (∀ (d : Nat) (D : Demultiplexer) (f : FilterFn), s.demuxes[d]? = some D →
      filters[D.stage]? = some f → D.closed = false → s.Early D →
      D.received <+: s.arrived.filter (Meant f D) ∧ D.received.Nodup ∧
      ((s.stages D.stage).table.lookup D.id = some d →
        D.received ++ D.ch.items ++ (s.pending D.stage).filter (Meant f D) =
          s.arrived.filter (Meant f D))) ∧
    ∀ (d d' : Nat) (D D' : Demultiplexer), s.demuxes[d]? = some D → s.demuxes[d']? = some D' →
      ∀ m ∈ D.received, m ∈ D'.received → d = d' := by
  have hsound := sound_of_reach hrun
  refine ⟨fun d D f hd hf hopen hearly => ?_, fun d d' D D' hd hd' m hm hm' => ?_⟩
  · have hin := hsound.delivered d D.view (view_handler hd) hopen hearly
    have hexp : Router.expected Msg.buildId (Msg.stage filters) s.view D.view =
        s.arrived.filter (Meant f D) := filter_mine hdis hf s.arrived
    have hfront : D.received <+: s.arrived.filter (Meant f D) := by
      have hacc : D.accepted <+: s.arrived.filter (Meant f D) := hexp ▸ hin.front
      exact (List.prefix_append D.received D.ch.items).trans hacc
    refine ⟨hfront, ?_, fun htable => ?_⟩
    · exact (hsound.fits.nodup.filter _).sublist hfront.sublist
    · have hwhole := hin.whole (.inl htable)
      rw [hexp, filter_mine hdis hf] at hwhole
      exact hwhole
  · have hacc : ∀ D : Demultiplexer, m ∈ D.received → m ∈ D.view.accepted :=
      fun D h => List.mem_append_left _ h
    exact hsound.once.unique d d' D.view D'.view (view_handler hd) (view_handler hd') m
      (hacc D hm) (hacc D' hm')

/-- A packet of the build `b` for the stage `fssync`. -/
def fssyncPacket : ClientStream :=
  ⟨lit "b", some (.buildTransfer
    { id := lit "b", data := [], complete := true,
      metadata := AList.singleton (lit "stage") (lit "fssync") })⟩

/-- One handler for the build `b`, and one packet for it. -/
theorem routing_one :
    ∃ s D, Reach (Pipeline.Step transferFilters) (fun _ _ => True) .initial s ∧
      s.demuxes[0]? = some D ∧ D.received = [⟨0, fssyncPacket⟩] ∧
      D.received <+: s.arrived.filter (Meant fssyncFilter D) := by
  have h : Reach (Pipeline.Step transferFilters) (fun _ _ => True) .initial .initial := .refl _
  have h := h.tail trivial (.register 3 (lit "b") (filterByBuildID (lit "b")) true false)
  have h := h.tail trivial (.arrive fssyncPacket rfl)
  have h := h.tail trivial (.process (i := 3) (m := ⟨0, fssyncPacket⟩) rfl rfl)
  have h := h.tail trivial (.run 3 (by decide) (.take rfl rfl))
  have h := h.tail trivial (.run 3 (by decide) (.load (d := 0) rfl rfl))
  have h := h.tail trivial (.run 3 (by decide) (.opened rfl rfl rfl))
  have h := h.tail trivial (.run 3 (by decide) (.accept rfl rfl rfl rfl))
  have h := h.tail trivial (.receive 0 rfl rfl)
  have hroute := routing _ transferFilters_disjoint _ h
  exact ⟨_, _, h, rfl, rfl, (hroute.1 0 _ _ rfl rfl rfl fun m hm => by cases hm).1⟩

end BuilderShim.Stream
