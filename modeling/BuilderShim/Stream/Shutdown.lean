/-
  Stream/Shutdown.lean --- whether the pipeline can shut down.

  The receiving goroutine hands a packet to a stage by a send on the stage's
  channel that does not watch the context.  After a cancellation the `Run` loops
  return and nobody receives from the channels any more: the fifth packet for a
  stage then holds the goroutine up for ever, and with it the wait group.
-/
import BuilderShim.Stream.Routing

set_option autoImplicit false

namespace BuilderShim.Stream

open BuilderShim.Foundation

/-- The client sends the given packets, in order; all else is left open. -/
def Receiving (incoming : List ClientStream) (s : Pipeline) : Event → Prop
  | .arrive c => incoming[s.arrived.length]? = some c
  | _ => True

/-- The context is cancelled, every `Run` has returned, and the receiving goroutine is at a
send on a full channel. -/
def Stuck (filters : List FilterFn) (s : Pipeline) : Prop :=
  s.cancelled = true ∧ (∀ i < filters.length, (s.stages i).run = .returned) ∧
    ∃ i m, s.receiver = .process i m ∧ (s.stages i).recvCh.send m = none

/-- It stays that way, whatever happens. -/
def Hangs (filters : List FilterFn) (incoming : List ClientStream) (s : Pipeline) : Prop :=
  ∀ s', Reach (Pipeline.Step filters) (Receiving incoming) s s' → Stuck filters s'

/-- The packets for one of the stages. -/
def packetsFor (filters : List FilterFn) (i : Nat) (incoming : List ClientStream) :
    List ClientStream :=
  incoming.filter fun c => dispatch filters c = some i

section

variable {filters : List FilterFn} {incoming : List ClientStream} {s s' : Pipeline} {e : Event}

/-! ## Nobody gets it going again -/

theorem Stuck.of_stages (h : Stuck filters s) (hc : s'.cancelled = true)
    (hr : s'.receiver = s.receiver)
    (hs : ∀ i, (s'.stages i).run = (s.stages i).run ∧ (s'.stages i).recvCh = (s.stages i).recvCh) :
    Stuck filters s' := by
  obtain ⟨_, hrun, i, m, hrecv, hfull⟩ := h
  refine ⟨hc, fun j hj => (hs j).1.trans (hrun j hj), i, m, hr.trans hrecv, ?_⟩
  rw [(hs i).2]
  exact hfull

theorem setTable_run (s : Pipeline) (i j : Nat) (t : Table) :
    ((s.setTable i t).stages j).run = (s.stages j).run ∧
      ((s.setTable i t).stages j).recvCh = (s.stages j).recvCh := by
  by_cases hj : j = i
  · subst hj
    simp [Pipeline.setTable, Pipeline.setRun]
  · simp [Pipeline.setTable, Pipeline.setRun, Function.update_of_ne hj]

/-- A `Run` that has returned makes no step. -/
theorem not_runStep {cancelled : Bool} {ds ds' : List Demultiplexer} {st st' : Stage}
    (hrun : st.run = .returned) : ¬ RunStep cancelled ds st ds' st' := by
  intro h
  cases h with
  | done h _ _ _ | visit h _ | rangeEnd h | take h _ | missing h _ | load h _ | closed h _ _
  | opened h _ _ | delete h _ | ignore h _ _ | accept h _ _ _ | acceptDone h _ _ _ | close h _ =>
      rw [hrun] at h
      cases h

theorem Stuck.step (h : Stuck filters s) (hstep : Pipeline.Step filters s e s') :
    Stuck filters s' := by
  obtain ⟨hc, hrun, i, m, hrecv, hfull⟩ := h
  have hstuck : Stuck filters s := ⟨hc, hrun, i, m, hrecv, hfull⟩
  cases hstep with
  | arrive c h | recvError h =>
      rw [hrecv] at h
      cases h
  | process h hsend =>
      rw [hrecv] at h
      cases h
      rw [hfull] at hsend
      cases hsend
  | run j hj h => exact (not_runStep (hrun j hj) h).elim
  | cancel => exact hstuck.of_stages rfl rfl fun _ => ⟨rfl, rfl⟩
  | receive _ _ _ | cancelDemux _ _ => exact hstuck.of_stages hc rfl fun _ => ⟨rfl, rfl⟩
  | register _ _ _ _ _ => exact hstuck.of_stages hc rfl fun j => setTable_run s _ j _
  | closeDemux _ _ _ | remove _ _ => exact hstuck.of_stages hc rfl fun j => setTable_run s _ j _

theorem Stuck.hangs (h : Stuck filters s) : Hangs filters incoming s :=
  fun _ hrun => hrun.invariant h fun _ _ _ h _ hstep => h.step hstep

/-! ## Four packets for a stage do not block -/

/-- What has arrived is the beginning of what is sent. -/
theorem arrived_eq (hrun : Reach (Pipeline.Step filters) (Receiving incoming) .initial s) :
    s.arrived.map Msg.packet = incoming.take s.arrived.length := by
  refine hrun.invariant (I := fun s => s.arrived.map Msg.packet = incoming.take s.arrived.length)
    rfl fun s e s' h he hstep => ?_
  cases hstep with
  | arrive c _ =>
      have he : incoming[s.arrived.length]? = some c := he
      simp only [Pipeline.receive, List.map_append, List.map_cons, List.map_nil, h,
        List.length_append, List.length_singleton, List.take_add_one, he, Option.toList_some]
  | _ => exact h

theorem packetsFor_arrived (ms : List Msg) (i : Nat) :
    packetsFor filters i (ms.map Msg.packet) =
      (ms.filter (Msg.stage filters · = some i)).map Msg.packet := by
  unfold packetsFor
  rw [List.filter_map]
  rfl

theorem not_stuck (hfew : ∀ i, (packetsFor filters i incoming).length ≤ 4)
    (hrun : Reach (Pipeline.Step filters) (Receiving incoming) .initial s) :
    ¬ Stuck filters s := by
  rintro ⟨_, _, i, m, hrecv, hfull⟩
  have hflow := ((sound_of_reach hrun).fits.flow i).length_le
  have hlane : s.view.pending i =
      (s.stages i).run.hand ++ (s.stages i).recvCh.items ++ [m] := by
    simp [Pipeline.view, Pipeline.pending, hrecv, ReceivePoint.hand]
  have hlen : (s.stages i).recvCh.items.length = 4 := Chan.send_eq_none_iff.mp hfull
  have hcount : (s.view.arrived.filter (Msg.stage filters · = some i)).length ≤ 4 := by
    have hpart : (packetsFor filters i (s.arrived.map Msg.packet)).length ≤ 4 := by
      refine Nat.le_trans (List.Sublist.length_le ?_) (hfew i)
      rw [arrived_eq hrun]
      exact (List.take_sublist _ _).filter _
    rw [packetsFor_arrived, List.length_map] at hpart
    exact hpart
  rw [hlane, List.length_append, List.length_append, hlen, List.length_singleton] at hflow
  omega

/-! ## Five packets do -/

/-- The pipeline was cancelled and every `Run` has returned; the packets that have arrived
since then are in the channels. -/
structure ShutDown (filters : List FilterFn) (xs : List ClientStream) (s : Pipeline) : Prop where
  cancelled : s.cancelled = true
  returned : ∀ i < filters.length, (s.stages i).run = .returned
  receiver : s.receiver = .recv
  arrived : s.arrived.map Msg.packet = xs
  queued : ∀ i, (s.stages i).recvCh.items.map Msg.packet = packetsFor filters i xs

theorem receiving_tau (s : Pipeline) : Receiving incoming s .tau := trivial

/-- A loop that finds the context cancelled and the table empty returns. -/
theorem reach_returned {i : Nat} (hi : i < filters.length) (hc : s.cancelled = true)
    (hrun : (s.stages i).run = .select) (htable : (s.stages i).table = ∅) :
    Reach (Pipeline.Step filters) (Receiving incoming) s
      (s.setStage i { s.stages i with run := .returned }) := by
  have hkeys : ([] : List Bytes).Perm (s.stages i).table.keys := by
    rw [htable, AList.keys_empty]
  obtain ⟨s₁, hs₁⟩ : ∃ s₁, s₁ = s.setStage i { s.stages i with run := .range [] } := ⟨_, rfl⟩
  have hstage : s₁.stages i = { s.stages i with run := .range [] } := by
    rw [hs₁]
    exact Function.update_self ..
  have hdone : Pipeline.Step filters s .tau s₁ := by
    rw [hs₁]
    exact .run i hi (.done hrun hc [] hkeys)
  have hend : Pipeline.Step filters s₁ .tau
      (s₁.setStage i { s₁.stages i with run := .returned }) :=
    .run i hi (.rangeEnd (by rw [hstage]))
  have hlast : s₁.setStage i { s₁.stages i with run := .returned } =
      s.setStage i { s.stages i with run := .returned } := by
    rw [hstage, hs₁]
    simp only [Pipeline.setRun, Function.update_idem]
  rw [← hlast]
  exact (Reach.single (receiving_tau _) hdone).tail (receiving_tau _) hend

/-- Cancelled at once, every loop returns. -/
theorem exists_shutDown (filters : List FilterFn) (incoming : List ClientStream) :
    ∃ s, Reach (Pipeline.Step filters) (Receiving incoming) .initial s ∧
    ShutDown filters [] s := by
  -- The loops up to the `k`-th have returned, the others are where they started.
  have hloops : ∀ k ≤ filters.length, ∃ s,
      Reach (Pipeline.Step filters) (Receiving incoming) .initial s ∧ s.cancelled = true ∧
        s.receiver = .recv ∧ s.arrived = [] ∧ (∀ i, (s.stages i).recvCh.items = []) ∧
        (∀ i, (s.stages i).table = ∅) ∧ (∀ i < k, (s.stages i).run = .returned) ∧
        ∀ i, k ≤ i → (s.stages i).run = .select := by
    intro k
    induction k with
    | zero =>
        intro _
        have hcancel : Receiving incoming .initial .cancel := trivial
        exact ⟨_, Reach.single hcancel .cancel, rfl, rfl, rfl, fun _ => rfl, fun _ => rfl,
          fun i hi => absurd hi (Nat.not_lt_zero i), fun _ _ => rfl⟩
    | succ k ih =>
        intro hk
        obtain ⟨s, hrun, hc, hrecv, harr, hch, htable, hret, hsel⟩ := ih (Nat.le_of_succ_le hk)
        have hnext := hrun.trans (reach_returned hk hc (hsel k (Nat.le_refl k)) (htable k))
        refine ⟨_, hnext, hc, hrecv, harr, ?_, ?_, ?_, ?_⟩
        · intro i
          by_cases hi : i = k
          · subst hi
            simp [Pipeline.setRun, hch]
          · simp [Pipeline.setRun, Function.update_of_ne hi, hch]
        · intro i
          by_cases hi : i = k
          · subst hi
            simp [Pipeline.setRun, htable]
          · simp [Pipeline.setRun, Function.update_of_ne hi, htable]
        · intro i hik
          by_cases hi : i = k
          · subst hi
            simp [Pipeline.setRun]
          · simp only [Pipeline.setRun, Function.update_of_ne hi]
            exact hret i (by omega)
        · intro i hik
          have hi : i ≠ k := by omega
          simp only [Pipeline.setRun, Function.update_of_ne hi]
          exact hsel i (by omega)
  obtain ⟨s, hrun, hc, hrecv, harr, hch, _, hret, _⟩ := hloops filters.length (Nat.le_refl _)
  refine ⟨s, hrun, hc, hret, hrecv, by rw [harr]; rfl, fun i => by rw [hch]; rfl⟩

theorem ShutDown.receive {xs : List ClientStream} (hs : ShutDown filters xs s) {c : ClientStream}
    (hdst : dispatch filters c = none) : ShutDown filters (xs ++ [c]) (s.receive filters c) where
  cancelled := hs.cancelled
  returned := hs.returned
  receiver := by
    simp only [Pipeline.receive, hdst]
    rfl
  arrived := by
    simp only [Pipeline.receive, List.map_append, hs.arrived, List.map_cons, List.map_nil]
  queued := by
    intro i
    unfold packetsFor
    rw [List.filter_append, List.filter_cons_of_neg (by simp [hdst]), List.filter_nil,
      List.append_nil]
    exact hs.queued i

/-- The packet goes into the channel of its stage. -/
theorem ShutDown.process {xs : List ClientStream} (hs : ShutDown filters xs s) {c : ClientStream}
    {i : Nat} (hdst : dispatch filters c = some i) {ch : Chan Msg 4}
    (hsend : (s.stages i).recvCh.send ⟨s.arrived.length, c⟩ = some ch) :
    ShutDown filters (xs ++ [c])
      { (s.receive filters c).setStage i { s.stages i with recvCh := ch } with
        receiver := .recv } where
  cancelled := hs.cancelled
  returned := by
    intro j hj
    by_cases heq : j = i
    · subst heq
      simp only [Pipeline.setRun, Function.update_self]
      exact hs.returned j hj
    · simp only [Pipeline.setRun, Function.update_of_ne heq]
      exact hs.returned j hj
  receiver := rfl
  arrived := by
    simp only [Pipeline.receive, Pipeline.setRun, List.map_append, hs.arrived, List.map_cons,
      List.map_nil]
  queued := by
    intro j
    unfold packetsFor
    rw [List.filter_append]
    by_cases heq : j = i
    · subst heq
      have hq := hs.queued j
      unfold packetsFor at hq
      simp [Pipeline.setRun, Chan.items_of_send hsend, hq, hdst]
    · have hq := hs.queued j
      unfold packetsFor at hq
      have hne : ¬ i = j := fun h => heq h.symm
      simp [Pipeline.setRun, Function.update_of_ne heq, Pipeline.receive, hq, hdst, hne]

/-- Packet by packet the channels fill up, until one is full and its stage gets another. -/
theorem ShutDown.exists_stuck (hmany : ∃ i, 4 < (packetsFor filters i incoming).length)
    {xs rest : List ClientStream} (hxs : xs ++ rest = incoming) (hs : ShutDown filters xs s) :
    ∃ t, Reach (Pipeline.Step filters) (Receiving incoming) s t ∧ Stuck filters t := by
  induction rest generalizing xs s with
  | nil =>
      obtain ⟨i, hi⟩ := hmany
      rw [List.append_nil] at hxs
      subst hxs
      have hlen := congrArg List.length (hs.queued i)
      have hbound := (s.stages i).recvCh.bounded
      rw [List.length_map] at hlen
      omega
  | cons c rest ih =>
      have hnext : Receiving incoming s (.arrive c) := by
        have hlen : s.arrived.length = xs.length := by rw [← hs.arrived, List.length_map]
        unfold Receiving
        rw [← hxs, hlen]
        simp
      have hxs' : (xs ++ [c]) ++ rest = incoming := by
        rw [List.append_assoc]
        exact hxs
      have harrive : Reach (Pipeline.Step filters) (Receiving incoming) s (s.receive filters c) :=
        Reach.single hnext (.arrive c hs.receiver)
      cases hdst : dispatch filters c with
      | none =>
          obtain ⟨t, hrun, ht⟩ := ih hxs' (hs.receive hdst)
          exact ⟨t, harrive.trans hrun, ht⟩
      | some i =>
          have hrecv : (s.receive filters c).receiver = .process i ⟨s.arrived.length, c⟩ := by
            simp only [Pipeline.receive, hdst]
            rfl
          cases hsend : (s.stages i).recvCh.send ⟨s.arrived.length, c⟩ with
          | none => exact ⟨_, harrive, hs.cancelled, hs.returned, i, _, hrecv, hsend⟩
          | some ch =>
              obtain ⟨t, hrun, ht⟩ := ih hxs' (hs.process hdst hsend)
              exact ⟨t, harrive.trans (hrun.head (receiving_tau _) (.process hrecv hsend)), ht⟩

theorem exists_hangs (hmany : ∃ i, 4 < (packetsFor filters i incoming).length) :
    ∃ s, Reach (Pipeline.Step filters) (Receiving incoming) .initial s ∧
      Hangs filters incoming s := by
  obtain ⟨s, hrun, hs⟩ := exists_shutDown filters incoming
  obtain ⟨t, hrun', ht⟩ := hs.exists_stuck hmany (List.nil_append incoming)
  exact ⟨t, hrun.trans hrun', ht.hangs⟩

end

/-- Whatever the filters and the packets: no state can be reached from which the receiving
goroutine stays blocked after a shutdown, if and only if no stage gets more packets than its
channel holds. -/
theorem shutdown_iff (filters : List FilterFn) (incoming : List ClientStream) :
    (∀ s, Reach (Pipeline.Step filters) (Receiving incoming) .initial s →
      ¬ Hangs filters incoming s) ↔
      ∀ i, (packetsFor filters i incoming).length ≤ 4 := by
  constructor
  · intro hno i
    refine Nat.le_of_not_lt fun hmany => ?_
    obtain ⟨s, hrun, hhang⟩ := exists_hangs ⟨i, hmany⟩
    exact hno s hrun hhang
  · intro hfew s hrun hhang
    exact not_stuck hfew hrun (hhang s (.refl s))

/-- Five packets for one stage. -/
theorem shutdown_blocked :
    ∃ s, Reach (Pipeline.Step transferFilters) (Receiving (List.replicate 5 fssyncPacket))
        .initial s ∧ Hangs transferFilters (List.replicate 5 fssyncPacket) s :=
  exists_hangs ⟨3, by decide⟩

end BuilderShim.Stream
