/-
  Fssync/Completion.lean --- `DiffCopy` comes to its end.

  In a run in which nothing fails the sender can only come to rest with every entry
  announced, every request served and the receive loop at `RecvMsg`, or, after
  `PACKET_FIN`, with all goroutines returned.  And it does come to rest, since each of
  its own steps does some of the work (`State.rank`).
-/
import BuilderShim.Fssync.Serve

set_option autoImplicit false

namespace BuilderShim.Fssync

open BuilderShim.Foundation

/-- The `PACKET_STAT` among the packets, the last one without a stat. -/
def marks (sent : List Packet) : List (Option Stat) :=
  sent.filterMap fun
    | .stat st => some st
    | .data _ _ | .fin | .err => none

/-- What `walk` has still to announce. -/
def WalkPoint.marks : WalkPoint → List (Option Stat)
  | .entry left _ => left.map some ++ [none]
  | .send st left _ => (st :: left).map some ++ [none]
  | .sendLast => [none]
  | .report | .returned => []

/-- What holds of the walk and the receive loop when nothing fails. -/
structure Finishing (entries : List Stat) (s : Shared) : Prop where
  announced : marks s.sent ++ s.walk.marks = entries.map some ++ [none]
  fin : Incoming.fin ∈ s.received ↔ s.receive = .fin ∨ s.receive = .returned
  returned : s.receive = .returned → s.closed = true ∧ Packet.fin ∈ s.sent

section

variable {c : Sender} {entries : List Stat} {s s' : Shared} {e : Event}

theorem marks_append (sent : List Packet) (p : Packet) :
    marks (sent ++ [p]) = marks sent ++ marks [p] := List.filterMap_append

/-- What is announced and what is still to be announced stay together. -/
theorem WalkStep.marks_eq (h : WalkStep c s e s') (hno : e ≠ .fail) :
    marks s'.sent ++ s'.walk.marks = marks s.sent ++ s.walk.marks := by
  cases h with
  | @note st left i hp =>
      rw [(note_frame s st i).2.2.2.1, hp]
      rfl
  | walkEnd hp =>
      rw [hp]
      rfl
  | sendStat hp | sendLast hp | report hp =>
      simp only [Shared.send, marks_append, hp, List.append_assoc]
      rfl
  | walkFails _ | sendStatFails _ | sendLastFails _ | reportFails _ => exact (hno rfl).elim

theorem WalkStep.received_eq (h : WalkStep c s e s') : s'.received = s.received := by
  cases h with
  | @note st left i _ => exact (note_frame s st i).2.2.2.2
  | _ => rfl

theorem WorkerStep.marks_eq {w w' : WorkerPoint} {new : List WorkerPoint}
    (h : WorkerStep c s w e s' w' new) :
    marks s'.sent = marks s.sent ∧ s'.walk = s.walk ∧ s'.received = s.received := by
  cases h with
  | chunk _ _ _ _ | finish => exact ⟨(marks_append _ _).trans (List.append_nil _), rfl, rfl⟩
  | _ => exact ⟨rfl, rfl, rfl⟩

/-- The loop goes on before it has read `PACKET_FIN`. -/
theorem Finishing.go_on (h : Finishing entries s) (hwalk : s'.walk = s.walk)
    (hsent : s'.sent = s.sent) (hat : s.receive ≠ .fin ∧ s.receive ≠ .returned)
    (hmem : Incoming.fin ∈ s'.received → Incoming.fin ∈ s.received)
    (hat' : s'.receive ≠ .fin ∧ s'.receive ≠ .returned) : Finishing entries s' := by
  refine ⟨by rw [hwalk, hsent]; exact h.announced, iff_of_false ?_ ?_, fun hr => (hat'.2 hr).elim⟩
  · exact fun hin => (h.fin.mp (hmem hin)).elim hat.1 hat.2
  · exact fun hor => hor.elim hat'.1 hat'.2

theorem Finishing.receive (h : Finishing entries s) (hstep : ReceiveStep s e s')
    (hcancelled : s.cancelled = false) (hfail : e ≠ .fail) (herr : e ≠ .recv .err)
    (hrefuse : ∀ id, e ≠ .refuse id) : Finishing entries s' := by
  have hat : ∀ p : ReceivePoint, s.receive = p → p ≠ .fin → p ≠ .returned →
      s.receive ≠ .fin ∧ s.receive ≠ .returned := by
    rintro _ rfl hfin hret
    exact ⟨hfin, hret⟩
  have hold : ∀ p : Incoming, p ≠ .fin → Incoming.fin ∈ s.received ++ [p] →
      Incoming.fin ∈ s.received := by
    intro p hp hmem
    rcases List.mem_append.mp hmem with hold | hnew
    · exact hold
    · exact (hp (List.mem_singleton.mp hnew).symm).elim
  cases hstep with
  | stop _ hc => exact absurd (hcancelled.symm.trans hc) Bool.false_ne_true
  | recvErr _ => exact (herr rfl).elim
  | recvFails _ | sendFinFails _ => exact (hfail rfl).elim
  | @refuse id _ _ => exact (hrefuse id rfl).elim
  | next hp _ | queue hp _ | push hp _ =>
      refine h.go_on rfl rfl (hat _ hp ?_ ?_) (fun hin => hin) ⟨?_, ?_⟩ <;> rintro ⟨⟩
  | recvReq id hp | recvOther hp =>
      refine h.go_on rfl rfl (hat _ hp ?_ ?_) (hold _ ?_) ⟨?_, ?_⟩ <;> rintro ⟨⟩
  | recvFin hp =>
      refine ⟨h.announced, iff_of_true ?_ (.inl rfl), fun hr => by cases hr⟩
      exact List.mem_append_right _ (List.mem_singleton_self _)
  | sendFin hp =>
      have hmarks : marks (s.sent ++ [.fin]) = marks s.sent :=
        (marks_append _ _).trans (List.append_nil _)
      refine ⟨?_, iff_of_true (h.fin.mpr (.inl hp)) (.inr rfl), fun _ => ⟨rfl, ?_⟩⟩
      · exact (congrArg (· ++ s.walk.marks) hmarks).trans h.announced
      · exact List.mem_append_right _ (List.mem_singleton_self _)

end

section

variable {c : Sender} {entries : List Stat} {s s' : State} {e : Event}

theorem Finishing.step (h : Finishing entries s.shared) (hflow : Flowing c entries s)
    (he : Orderly s e) (hstep : Step c s e s') : Finishing entries s'.shared := by
  obtain ⟨hfail, hrefuse, hcancelled⟩ := hflow.smooth he hstep
  have hsent := sent_of_step hstep
  cases hstep with
  | walk hw =>
      obtain ⟨hrecv, hclosed⟩ := hw.frame
      refine ⟨(hw.marks_eq hfail).trans h.announced, ?_, ?_⟩
      · rw [hw.received_eq, hrecv]
        exact h.fin
      · rw [hrecv, hclosed]
        exact fun hret => ⟨(h.returned hret).1, hsent.subset (h.returned hret).2⟩
  | receive hr => exact h.receive hr hcancelled hfail he.2.2.2.1 hrefuse
  | worker hw =>
      cases hw with
      | mk before after hlocal =>
          obtain ⟨hrecv, hclosed⟩ := hlocal.frame
          obtain ⟨hmarks, hwalk, hreceived⟩ := hlocal.marks_eq
          refine ⟨?_, ?_, ?_⟩
          · rw [hmarks, hwalk]
            exact h.announced
          · rw [hreceived, hrecv]
            exact h.fin
          · rw [hrecv, hclosed]
            exact fun hret => ⟨(h.returned hret).1, hsent.subset (h.returned hret).2⟩
  | cancel => exact (he.2.2.1 rfl).elim

theorem Finishing.initial (entries : List Stat) :
    Finishing entries (Shared.initial entries) := by
  refine ⟨rfl, iff_of_false List.not_mem_nil ?_, fun hr => by cases hr⟩
  rintro (hr | hr)
  · cases hr
  · cases hr

/-! ## At rest -/

/-- The walk can go on until it has returned. -/
theorem live_walk (hp : s.shared.walk ≠ .returned) : Live c s := by
  have hstep : ∃ sh, WalkStep c s.shared .tau sh := by
    cases hw : s.shared.walk with
    | entry left i =>
        cases left with
        | nil => exact ⟨_, .walkEnd hw⟩
        | cons st left => exact ⟨_, .note hw⟩
    | send st left i => exact ⟨_, .sendStat hw⟩
    | sendLast => exact ⟨_, .sendLast hw⟩
    | report => exact ⟨_, .report hw⟩
    | returned => exact (hp hw).elim
  obtain ⟨sh, hsh⟩ := hstep
  exact ⟨_, .tau, trivial, .walk hsh⟩

/-- The receive loop can go on unless it waits for a packet or has returned. -/
theorem Flowing.live_receive (h : Flowing c entries s)
    (hp : s.shared.receive ≠ .recvMsg ∧ s.shared.receive ≠ .returned) : Live c s := by
  have hjob : ∀ job, job ∈ s.shared.receive.jobs c entries → Live c s := by
    intro job hjob
    exact h.live (List.mem_append_left _ (List.mem_append_left _ hjob))
  cases hr : s.shared.receive with
  | select => exact ⟨_, .tau, trivial, .receive (.next hr h.cancelled)⟩
  | fin => exact ⟨_, .tau, trivial, .receive (.sendFin hr)⟩
  | queue id | push hd =>
      rw [hr] at hjob
      exact hjob _ (List.mem_singleton_self _)
  | recvMsg => exact (hp.1 hr).elim
  | returned => exact (hp.2 hr).elim

/-- A worker returns once the channel is closed. -/
theorem Flowing.live_closed (h : Flowing c entries s) (hclosed : s.shared.closed = true)
    {w : WorkerPoint} (hw : w ∈ s.tasks) (hp : w ≠ .returned) : Live c s := by
  by_cases hrecv : w = .recv
  · subst hrecv
    cases hitems : s.shared.sendpipeline.recv with
    | none => exact live_worker hw (e := .tau) trivial (.drained hitems hclosed)
    | some x => exact live_worker hw (e := .tau) trivial (.take hitems)
  · exact h.live_busy hw ⟨hrecv, hp⟩

/-- From `s` the sender has come to rest in `s'`. -/
structure Settled (c : Sender) (entries : List Stat) (s s' : State) : Prop where
  announced : marks s'.shared.sent = entries.map some ++ [none]
  served : AllServed c s s'
  waiting : Incoming.fin ∉ s.shared.received → s'.shared.receive = .recvMsg
  ended : Incoming.fin ∈ s.shared.received → Packet.fin ∈ s'.shared.sent ∧
    s'.shared.walk = .returned ∧ s'.shared.receive = .returned ∧ ∀ w ∈ s'.tasks, w = .returned

theorem Flowing.settled (h : Flowing c entries s) (hfin : Finishing entries s.shared)
    (hstuck : ¬ Live c s) : Settled c entries s s := by
  have hwalk : s.shared.walk = .returned := by_contra fun hp => hstuck (live_walk hp)
  have hrecv : s.shared.receive = .recvMsg ∨ s.shared.receive = .returned := by
    by_contra hno
    exact hstuck (h.live_receive (not_or.mp hno))
  refine ⟨?_, by_contra fun hno => hstuck (h.allServed_or_live hno), ?_, ?_⟩
  · have hall := hfin.announced
    rw [hwalk] at hall
    exact (List.append_nil _).symm.trans hall
  · intro hnot
    exact hrecv.resolve_right fun hret => hnot (hfin.fin.mpr (.inr hret))
  · intro hmem
    have hret : s.shared.receive = .returned := by
      refine hrecv.resolve_left fun hmsg => ?_
      rcases hfin.fin.mp hmem with hp | hp
      · cases hmsg.symm.trans hp
      · cases hmsg.symm.trans hp
    obtain ⟨hclosed, hsent⟩ := hfin.returned hret
    exact ⟨hsent, hwalk, hret, fun w hw => by_contra fun hp => hstuck (h.live_closed hclosed hw hp)⟩

end

/-- Trees of at most 2^32 entries, requests for regular files that were announced, nothing
fails.  Wherever the sender is, it comes to rest by its own steps: every entry has been announced
in order, then the end of them, every request has been served to its end, and the receive loop
waits for a packet; if `PACKET_FIN` has come, it is answered and all goroutines have returned. -/
theorem diffCopy_completes (c : Sender) (entries : List Stat) (hlen : entries.length ≤ 2 ^ 32)
    {s : State} (hrun : Reach (Step c) Orderly (initial entries) s) :
    Inevitable (Moves (Step c) Internal) (Settled c entries s) s := by
  have hstart : Flowing c entries s ∧ Finishing entries s.shared :=
    hrun.invariant (I := fun t => Flowing c entries t ∧ Finishing entries t.shared)
      ⟨.initial c entries, .initial entries⟩
      fun _ _ _ h he hstep => ⟨h.1.step hlen he hstep, h.2.step h.1 he hstep⟩
  refine Inevitable.of_rank (I := fun t => Flowing c entries t ∧ Finishing entries t.shared ∧
    t.shared.received = s.shared.received) (State.rank c entries) ?_ ?_ ?_
    ⟨hstart.1, hstart.2, rfl⟩
  · rintro t t' ⟨ht, hfin, hreq⟩ ⟨e, he, hstep⟩
    exact ⟨ht.step hlen he.orderly hstep, hfin.step ht he.orderly hstep,
      (received_of_internal hstep he).trans hreq⟩
  · rintro t t' ⟨ht, _⟩ ⟨e, he, hstep⟩
    exact rank_lt hstep he ht.kept.aligned
  · rintro t ⟨ht, hfin, hreq⟩ hno
    by_contra hstuck
    obtain ⟨hall, hserved, hwait, hend⟩ := ht.settled hfin hstuck
    unfold AllServed at hserved
    rw [hreq] at hserved hwait hend
    exact hno ⟨hall, hserved, hwait, hend⟩

theorem filterMap_marks (sent : List Packet) : (marks sent).filterMap id = stats sent := by
  rw [marks, List.filterMap_filterMap]
  refine congrArg (List.filterMap · sent) (funext fun p => ?_)
  cases p with
  | stat st => rfl
  | _ => rfl

/-- A client that asks for the one file, which is the byte `f`, and for no more. -/
theorem diffCopy_completes_one :
    ∃ s s', Reach (Step ⟨none, id, []⟩) Orderly (initial [⟨lit "f", 0o644⟩]) s ∧
      s.shared.received = [.req 0, .fin] ∧
      Relation.ReflTransGen (Moves (Step ⟨none, id, []⟩) Internal) s s' ∧
      Service.Served (lit "f") (s'.shared.dataOf 0) ∧
      Settled ⟨none, id, []⟩ [⟨lit "f", 0o644⟩] s s' := by
  have htau : ∀ s : State, Orderly s .tau := fun s => Internal.orderly (e := .tau) trivial
  have h : Reach (Step ⟨none, id, []⟩) Orderly (initial [⟨lit "f", 0o644⟩]) _ := .refl _
  have h := h.tail (htau _) (.walk (.note rfl))
  have h := h.tail (htau _) (.walk (.sendStat rfl))
  have h := h.tail (htau _) (.receive (.next rfl rfl))
  have h := h.tail (by exact ⟨⟨Nat.one_pos, List.not_mem_nil⟩, by rintro ⟨⟩, by rintro ⟨⟩,
    by rintro ⟨⟩,
    fun id h => (by cases h; exact ⟨_, rfl, rfl⟩)⟩) (.receive (.recvReq 0 rfl))
  have h := h.tail (htau _) (.receive (.queue rfl rfl))
  have h := h.tail (htau _) (.receive (.push rfl rfl))
  have h := h.tail (htau _) (.receive (.next rfl rfl))
  have h := h.tail (by exact ⟨trivial, by rintro ⟨⟩, by rintro ⟨⟩, by rintro ⟨⟩, by rintro id ⟨⟩⟩)
    (.receive (.recvFin rfl))
  obtain ⟨s', hrun, hsettled⟩ := (diffCopy_completes _ _ (by decide) h).exists_run
  obtain ⟨st, hst, hserved⟩ := hsettled.served 0 (List.mem_singleton_self _)
  rw [← filterMap_marks, hsettled.announced] at hst
  cases hst
  exact ⟨_, s', h, rfl, hrun, hserved, hsettled⟩

end BuilderShim.Fssync
