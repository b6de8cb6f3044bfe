/-
  Fssync/Backlog.lean --- the receive loop in front of a full channel.

  When a worker ends it has taken a handle from the channel, and the receive loop
  does not look at the context while it sends one: if all 64 workers end with the
  channel full and the receive loop at a send, that send never returns.  It takes
  64 + 128 + 1 handles to get there, hence as many regular files.
-/
import BuilderShim.Fssync.Sender

set_option autoImplicit false

namespace BuilderShim.Fssync

open BuilderShim.Foundation

/-- Every worker has returned, and the receive loop is at a send on the full channel. -/
def Stuck (s : State) : Prop :=
  (∀ w ∈ s.tasks, w = .returned) ∧
    ∃ h, s.shared.receive = .push h ∧ s.shared.sendpipeline.send h = none

/-- The regular files among the entries. -/
def regularFiles (entries : List Stat) : Nat := entries.countP fun st => fileCanRequestData st.mode

/-! ## Handles are counted -/

/-- The regular files the walk has not come to. -/
def WalkPoint.ahead : WalkPoint → Nat
  | .entry left _ | .send _ left _ => regularFiles left
  | .sendLast | .report | .returned => 0

/-- The handle the receive loop is about to send. -/
def ReceivePoint.handles : ReceivePoint → Nat
  | .push _ => 1
  | .select | .recvMsg | .queue _ | .fin | .returned => 0

/-- What a worker has taken at least, if the channel is not closed. -/
def WorkerPoint.handles : WorkerPoint → Nat
  | .recv => 0
  | .check _ | .sendFile _ | .copy _ _ _ | .returned => 1

/-- The files that have no handle yet, and the handles that no worker has. -/
def Shared.handles (s : Shared) : Nat :=
  s.walk.ahead + s.files.entries.length + s.receive.handles + s.sendpipeline.items.length

def State.handles (s : State) : Nat := s.shared.handles + s.weight WorkerPoint.handles

theorem length_insert_le (t : AList fun _ : UInt32 => Bytes) (i : UInt32) (p : Bytes) :
    (t.insert i p).entries.length ≤ t.entries.length + 1 := by
  rw [AList.entries_insert, List.length_cons]
  exact Nat.succ_le_succ (List.kerase_sublist i t.entries).length_le

theorem length_erase {t : AList fun _ : UInt32 => Bytes} {i : UInt32} {p : Bytes}
    (h : t.lookup i = some p) : (t.erase i).entries.length + 1 = t.entries.length := by
  have hmem : (⟨i, p⟩ : Sigma fun _ : UInt32 => Bytes) ∈ t.entries :=
    (List.mem_dlookup_iff t.nodupKeys).mp h
  have hpos : 0 < t.entries.length := List.length_pos_of_mem hmem
  have hlen := List.length_eraseP_of_mem hmem (p := fun s => i = s.1) (by simp)
  change (t.entries.eraseP fun s => i = s.1).length + 1 = t.entries.length
  omega

section

variable {c : Sender} {s s' : Shared} {e : Event}

theorem handles_note (s : Shared) (st : Stat) (i : UInt32) :
    (s.note st i).files.entries.length ≤
      s.files.entries.length + regularFiles [st] := by
  unfold Shared.note
  split
  · rename_i hreg
    have hle := length_insert_le s.files i st.path
    simp only [regularFiles, List.countP_singleton, hreg, if_true]
    exact hle
  · exact Nat.le_add_right _ _

theorem note_frame (s : Shared) (st : Stat) (i : UInt32) :
    (s.note st i).receive = s.receive ∧ (s.note st i).sendpipeline = s.sendpipeline ∧
      (s.note st i).closed = s.closed ∧ (s.note st i).sent = s.sent ∧
      (s.note st i).received = s.received := by
  unfold Shared.note
  split
  · exact ⟨rfl, rfl, rfl, rfl, rfl⟩
  · exact ⟨rfl, rfl, rfl, rfl, rfl⟩

theorem regularFiles_cons (st : Stat) (left : List Stat) :
    regularFiles (st :: left) = regularFiles left + regularFiles [st] := by
  simp only [regularFiles, List.countP_cons, List.countP_nil]
  omega

theorem WalkStep.handles_le (h : WalkStep c s e s') : s'.handles ≤ s.handles := by
  cases h with
  | @note st left i hp =>
      obtain ⟨hrecv, hpipe, _⟩ := note_frame s st i
      have hle := handles_note s st i
      simp only [Shared.handles, hp, hrecv, hpipe, WalkPoint.ahead, regularFiles_cons st left]
      omega
  | walkEnd hp | sendLast hp | walkFails hp | sendStatFails hp | sendLastFails hp | report hp
  | reportFails hp =>
      simp only [Shared.handles, Shared.send, hp, WalkPoint.ahead]
      omega
  | sendStat hp =>
      simp only [Shared.handles, Shared.send, hp, WalkPoint.ahead]
      exact Nat.le_refl _

theorem ReceiveStep.handles_le (h : ReceiveStep s e s') : s'.handles ≤ s.handles := by
  cases h with
  | queue hp hlook =>
      have hlen := length_erase hlook
      simp only [Shared.handles, hp, ReceivePoint.handles]
      omega
  | push hp hsend =>
      simp only [Shared.handles, hp, ReceivePoint.handles, Chan.items_of_send hsend,
        List.length_append, List.length_singleton]
      omega
  | stop hp _ | next hp _ | recvReq _ hp | recvFin hp | recvErr hp | recvOther hp | recvFails hp
  | refuse hp _ | sendFin hp | sendFinFails hp =>
      simp only [Shared.handles, Shared.endReceive, Shared.send, hp, ReceivePoint.handles]
      exact Nat.le_refl _

theorem WorkerStep.handles_le {w w' : WorkerPoint} {new : List WorkerPoint}
    (h : WorkerStep c s w e s' w' new) (hopen : s.closed = false) :
    s'.handles + w'.handles + (new.map WorkerPoint.handles).sum ≤ s.handles + w.handles := by
  cases h with
  | take hrecv =>
      simp only [Shared.handles, Chan.items_of_recv hrecv, List.length_cons, WorkerPoint.handles,
        List.map_nil, List.sum_nil]
      omega
  | drained _ hclosed => exact absurd (hopen.symm.trans hclosed) (by simp)
  | finish =>
      simp only [Shared.handles, Shared.send, WorkerPoint.handles, List.map_nil, List.sum_nil]
      omega
  | stop _ | proceed _ | openBytes _ | openFile _ | openFails _ | copyFails =>
      simp only [WorkerPoint.handles, List.map_nil, List.sum_nil]
      omega
  | chunk _ _ _ _ =>
      simp only [Shared.handles, Shared.send, WorkerPoint.handles, List.map_nil, List.sum_nil]
      omega

end

/-- The channel is open, and then no more handles than files, or the receive loop has
returned. -/
structure Counted (n : Nat) (s : State) : Prop where
  handles : s.shared.closed = false → s.handles ≤ n
  returned : s.shared.closed = true → s.shared.receive = .returned

section

variable {c : Sender} {s s' : State} {e : Event} {n : Nat}

theorem WalkStep.frame {s s' : Shared} (h : WalkStep c s e s') :
    s'.receive = s.receive ∧ s'.closed = s.closed := by
  cases h with
  | @note st left i _ =>
      obtain ⟨hrecv, _, hclosed, _⟩ := note_frame s st i
      exact ⟨hrecv, hclosed⟩
  | _ => exact ⟨rfl, rfl⟩

theorem WorkerStep.frame {s s' : Shared} {w w' : WorkerPoint} {new : List WorkerPoint}
    (h : WorkerStep c s w e s' w' new) : s'.receive = s.receive ∧ s'.closed = s.closed := by
  cases h with
  | _ => exact ⟨rfl, rfl⟩

theorem ReceiveStep.closed {s s' : Shared} (h : ReceiveStep s e s')
    (hold : s.closed = true → s.receive = .returned) :
    (s'.closed = true → s'.receive = .returned) ∧ (s'.closed = false → s.closed = false) := by
  cases h with
  | stop _ _ | recvErr _ | recvFails _ | refuse _ _ | sendFin _ | sendFinFails _ =>
      exact ⟨fun _ => rfl, fun h => by cases h⟩
  | next hp _ | recvReq _ hp | recvFin hp | recvOther hp | queue hp _ | push hp _ =>
      refine ⟨fun h => ?_, fun h => h⟩
      have hret := hold h
      rw [hp] at hret
      cases hret

theorem Counted.step (h : Counted n s) (hstep : Step c s e s') : Counted n s' := by
  cases hstep with
  | walk hw =>
      obtain ⟨hrecv, hclosed⟩ := hw.frame
      refine ⟨fun hopen => ?_, fun hc => ?_⟩
      · rw [hclosed] at hopen
        exact Nat.le_trans (Nat.add_le_add_right hw.handles_le _) (h.handles hopen)
      · rw [hclosed] at hc
        exact hrecv.trans (h.returned hc)
  | receive hr =>
      obtain ⟨hret, hopen⟩ := hr.closed h.returned
      refine ⟨fun hc => ?_, hret⟩
      exact Nat.le_trans (Nat.add_le_add_right hr.handles_le _) (h.handles (hopen hc))
  | worker hw =>
      have hframe : s'.shared.receive = s.shared.receive ∧
          s'.shared.closed = s.shared.closed := by
        cases hw with
        | mk before after hlocal => exact hlocal.frame
      refine ⟨fun hopen => ?_, fun hc => ?_⟩
      · rw [hframe.2] at hopen
        exact Nat.le_trans (Tasks.budget_le 0 hw fun hlocal => hlocal.handles_le hopen)
          (h.handles hopen)
      · rw [hframe.2] at hc
        exact hframe.1.trans (h.returned hc)
  | cancel => exact ⟨h.handles, h.returned⟩

/-- No worker is started or lost. -/
theorem workers_of_step (hstep : Step c s e s') : s'.tasks.length = s.tasks.length := by
  cases hstep with
  | worker hw =>
      cases hw with
      | mk before after hlocal => cases hlocal <;> simp
  | _ => rfl

theorem Counted.initial (entries : List Stat) : Counted (regularFiles entries) (initial entries) :=
  ⟨fun _ => Nat.le_of_eq (by simp [State.handles, Fssync.initial, Shared.handles, Shared.initial,
    WalkPoint.ahead, ReceivePoint.handles, Tasks.weight, WorkerPoint.handles]),
    fun h => by cases h⟩

end

theorem not_stuck {c : Sender} {C : State → Event → Prop} {entries : List Stat} {s : State}
    (hfew : regularFiles entries ≤ 192) (hrun : Reach (Step c) C (initial entries) s) :
    ¬ Stuck s := by
  rintro ⟨hws, h, hpush, hfull⟩
  have hcounted : Counted (regularFiles entries) s ∧ s.tasks.length = 64 :=
    hrun.invariant (I := fun s => Counted (regularFiles entries) s ∧ s.tasks.length = 64)
      ⟨.initial entries, List.length_replicate⟩
      fun _ _ _ hI _ hstep => ⟨hI.1.step hstep, (workers_of_step hstep).trans hI.2⟩
  have hopen : s.shared.closed = false := by
    cases hc : s.shared.closed with
    | false => rfl
    | true =>
        have hret := hcounted.1.returned hc
        rw [hpush] at hret
        cases hret
  have hle := hcounted.1.handles hopen
  have hweight : s.weight WorkerPoint.handles = 64 := by
    have hall : s.tasks = List.replicate 64 .returned :=
      List.eq_replicate_iff.mpr ⟨hcounted.2, hws⟩
    simp [Tasks.weight, hall, WorkerPoint.handles]
  have hitems := Chan.send_eq_none_iff.mp hfull
  simp only [State.handles, Shared.handles, hpush, ReceivePoint.handles, hweight, hitems] at hle
  omega

/-! ## The way there -/

/-- The walk has `left` to go; every file it has announced was requested at once.  The first
`n` handles are with workers that have just taken them, or in the channel. -/
structure Filling (left : List Stat) (n : Nat) (s : State) : Prop where
  walk : ∃ i, s.shared.walk = .entry left i
  files : s.shared.files = ∅
  receive : s.shared.receive = .select
  cancelled : s.shared.cancelled = false
  workers : ∃ hs : List SendHandle, s.tasks = hs.map .check ++
    List.replicate (64 - hs.length) .recv ∧
    hs.length ≤ 64 ∧ hs.length + s.shared.sendpipeline.items.length = n ∧
    (hs.length = 64 ∨ s.shared.sendpipeline.items = [])

/-- Every worker has just taken a handle, and the receive loop is at a send on the full
channel. -/
structure Full (s : State) : Prop where
  walk : ∃ left i, s.shared.walk = .entry left i
  receive : ∃ h, s.shared.receive = .push h ∧ s.shared.sendpipeline.send h = none
  workers : ∃ hs : List SendHandle, s.tasks = hs.map .check

/-- Runs with nothing excluded. -/
abbrev Runs (c : Sender) : State → State → Prop := Reach (Step c) fun _ _ => True

section

variable {c : Sender} {s : State} {left : List Stat} {st : Stat} {n : Nat}

/-- One entry further, with nothing requested. -/
theorem Filling.skip (hs : Filling (st :: left) n s) (hreg : fileCanRequestData st.mode = false) :
    ∃ s', Runs c s s' ∧ Filling left n s' := by
  obtain ⟨⟨i, hwalk⟩, hfiles, hrecv, hcancel, hws⟩ := hs
  have hnote : s.shared.note st i = s.shared := by
    unfold Shared.note
    rw [hreg]
    rfl
  refine ⟨_, (Reach.single trivial (.walk (.note hwalk))).tail trivial
    (.walk (.sendStat rfl)), ⟨_, rfl⟩, ?_, ?_, ?_, ?_⟩
  · simp only [Shared.send, hnote, hfiles]
  · simp only [Shared.send, hnote, hrecv]
  · simp only [Shared.send, hnote, hcancel]
  · simp only [Shared.send, hnote]
    exact hws

/-- The next regular file is announced and requested: its handle is about to be sent. -/
theorem Filling.request (hs : Filling (st :: left) n s) (hreg : fileCanRequestData st.mode = true) :
    ∃ s' i h, Runs c s s' ∧ s'.shared.walk = .entry left i ∧ s'.shared.files = ∅ ∧
      s'.shared.receive = .push h ∧ s'.shared.cancelled = false ∧ s'.tasks = s.tasks ∧
      s'.shared.sendpipeline = s.shared.sendpipeline := by
  obtain ⟨⟨i, hwalk⟩, hfiles, hrecv, hcancel, _⟩ := hs
  have hnote : s.shared.note st i = { s.shared with
      files := AList.insert i st.path ∅, announced := s.shared.announced ++ [i] } := by
    unfold Shared.note
    rw [hreg, hfiles]
    rfl
  have h : Runs c s s := .refl s
  have h := h.tail trivial (.walk (.note hwalk))
  rw [hnote] at h
  have h := h.tail trivial (.walk (.sendStat rfl))
  have h := h.tail trivial (.receive (.next hrecv hcancel))
  have h := h.tail trivial (.receive (.recvReq i rfl))
  have h := h.tail trivial (.receive (.queue rfl (AList.lookup_insert _)))
  refine ⟨_, i + 1, ⟨i, st.path⟩, h, rfl, ?_, rfl, hcancel, rfl, rfl⟩
  apply AList.ext
  change List.kerase _ (AList.insert _ _ _).entries = _
  simp

/-- An idle worker takes the only handle. -/
theorem Filling.take {hs : List SendHandle} {h : SendHandle} {ch : Chan SendHandle 128}
    (htasks : s.tasks = hs.map .check ++ List.replicate (64 - hs.length) .recv)
    (hlt : hs.length < 64) (hrecv : s.shared.sendpipeline.recv = some (h, ch)) :
    Runs c s ⟨{ s.shared with sendpipeline := ch },
      (hs ++ [h]).map .check ++ List.replicate (64 - (hs ++ [h]).length) .recv⟩ := by
  have hsplit : s.tasks = hs.map .check ++ .recv :: List.replicate (63 - hs.length) .recv := by
    rw [htasks, ← List.replicate_succ]
    congr 2
    omega
  have hstep := TaskStep.mk (hs.map WorkerPoint.check)
    (List.replicate (63 - hs.length) WorkerPoint.recv) (WorkerStep.take (c := c) hrecv)
  rw [← hsplit] at hstep
  have hend : hs.map WorkerPoint.check ++ .check h ::
      List.replicate (63 - hs.length) WorkerPoint.recv ++ [] =
      (hs ++ [h]).map .check ++ List.replicate (64 - (hs ++ [h]).length) .recv := by
    simp only [List.map_append, List.map_cons, List.map_nil, List.length_append,
      List.length_singleton, List.append_assoc, List.cons_append, List.nil_append, List.append_nil]
    congr 3
    omega
  rw [hend] at hstep
  exact Reach.single trivial (.worker hstep)

/-- The next file is a regular one: its handle is queued, or there is no room for it. -/
theorem Filling.queue (hs : Filling (st :: left) n s) (hreg : fileCanRequestData st.mode = true) :
    ∃ s', Runs c s s' ∧ (Full s' ∨ n + 1 ≤ 192 ∧ Filling left (n + 1) s') := by
  obtain ⟨s₁, i, h, hrun, hwalk, hfiles, hrecv, hcancel, htasks, hpipe⟩ := hs.request hreg
  obtain ⟨hs', hws, hle, hsum, halt⟩ := hs.workers
  rw [← htasks] at hws
  rw [← hpipe] at hsum halt
  cases hsend : s₁.shared.sendpipeline.send h with
  | none =>
      -- The channel holds 128, so all workers have a handle.
      have hitems := Chan.send_eq_none_iff.mp hsend
      have hall : hs'.length = 64 := by
        rcases halt with hall | hnil
        · exact hall
        · rw [hnil] at hitems
          cases hitems
      refine ⟨s₁, hrun, .inl ⟨⟨left, i, hwalk⟩, ⟨h, hrecv, hsend⟩, hs', ?_⟩⟩
      rw [hws, hall]
      simp
  | some ch =>
      have hpush := hrun.tail trivial (.receive (.push hrecv hsend))
      have hitems := Chan.items_of_send hsend
      have hbound := ch.bounded
      by_cases hall : hs'.length = 64
      · rw [hitems, List.length_append, List.length_singleton] at hbound
        refine ⟨_, hpush, .inr ⟨by omega, ⟨i, hwalk⟩, hfiles, rfl, hcancel, hs', hws, hle, ?_,
          .inl hall⟩⟩
        rw [hitems, List.length_append, List.length_singleton]
        omega
      · have hnil := halt.resolve_left hall
        rw [hnil, List.nil_append] at hitems
        rw [hnil, List.length_nil] at hsum
        have htake : ch.recv = some (h, .empty) := by
          rcases ch with ⟨items, hb⟩
          cases hitems
          rfl
        have hgo := Filling.take (c := c)
          (s := ⟨{ s₁.shared with sendpipeline := ch, receive := .select }, s₁.tasks⟩)
          hws (by omega) htake
        refine ⟨_, hpush.trans hgo, .inr ⟨by omega, ⟨i, hwalk⟩, hfiles, rfl, hcancel, hs' ++ [h],
          rfl, ?_, ?_, .inr rfl⟩⟩
        · rw [List.length_append, List.length_singleton]
          omega
        · simp only [List.length_append, List.length_singleton, Chan.items_empty, List.length_nil]
          omega

theorem Filling.exists_full (hs : Filling left n s) (hn : n ≤ 192)
    (hmany : 193 ≤ n + regularFiles left) : ∃ s', Runs c s s' ∧ Full s' := by
  induction left generalizing n s with
  | nil =>
      simp only [regularFiles, List.countP_nil] at hmany
      omega
  | cons st left ih =>
      rw [regularFiles_cons] at hmany
      cases hreg : fileCanRequestData st.mode with
      | false =>
          obtain ⟨s₁, hrun, hs₁⟩ := hs.skip hreg
          have hzero : regularFiles [st] = 0 := by simp [regularFiles, hreg]
          obtain ⟨s₂, hrun', hfull⟩ := ih hs₁ hn (by omega)
          exact ⟨s₂, hrun.trans hrun', hfull⟩
      | true =>
          have hone : regularFiles [st] = 1 := by simp [regularFiles, hreg]
          obtain ⟨s₁, hrun, hfull | ⟨hn', hs₁⟩⟩ := hs.queue hreg
          · exact ⟨s₁, hrun, hfull⟩
          · obtain ⟨s₂, hrun', hfull⟩ := ih hs₁ hn' (by omega)
            exact ⟨s₂, hrun.trans hrun', hfull⟩

/-- With the context cancelled, workers that have just taken a handle return. -/
theorem exists_returned (sh : Shared) (hc : sh.cancelled = true) (front : List WorkerPoint)
    (hs : List SendHandle) :
    Runs c ⟨sh, front ++ hs.map .check⟩ ⟨sh, front ++ hs.map fun _ => .returned⟩ := by
  induction hs generalizing front with
  | nil => exact .refl _
  | cons h hs ih =>
      have hstep := TaskStep.mk front (hs.map WorkerPoint.check)
        (WorkerStep.stop (c := c) (h := h) hc)
      rw [List.append_nil] at hstep
      have hrest := ih (front ++ [.returned])
      simp only [List.append_assoc, List.cons_append, List.nil_append] at hrest
      exact (Reach.single trivial (.worker hstep)).trans hrest

theorem Full.exists_stuck (hs : Full s) : ∃ s', Runs c s s' ∧ Stuck s' := by
  obtain ⟨⟨left, i, hwalk⟩, ⟨h, hrecv, hsend⟩, hs', hws⟩ := hs
  have hrun : Runs c s s := .refl s
  -- The walk fails, and the group cancels the context.
  have hrun := hrun.tail trivial (.walk (.walkFails hwalk))
  have hrun := hrun.tail trivial (.walk (.report rfl))
  have hrun := hrun.tail trivial .cancel
  have hend := exists_returned (c := c)
    { s.shared with walk := .returned, sent := s.shared.sent ++ [.err], cancelled := true } rfl
      [] hs'
  rw [List.nil_append, ← hws] at hend
  refine ⟨_, hrun.trans hend, fun w hw => ?_, h, hrecv, hsend⟩
  rw [List.nil_append, List.mem_map] at hw
  obtain ⟨_, _, rfl⟩ := hw
  rfl

end

/-- No state can be reached in which all workers have returned and the receive loop is at a
send on the full channel, if and only if there are at most 64 + 128 regular files. -/
theorem backlog_iff (c : Sender) (entries : List Stat) :
    (∀ s, Reach (Step c) (fun _ _ => True) (initial entries) s → ¬ Stuck s) ↔
      regularFiles entries ≤ 192 := by
  constructor
  · intro hno
    refine Nat.le_of_not_lt fun hmany => ?_
    have hstart : Filling entries 0 (initial entries) :=
      ⟨⟨0, rfl⟩, rfl, rfl, rfl, [], rfl, Nat.zero_le _, rfl, .inr rfl⟩
    obtain ⟨s₁, hrun₁, hfull⟩ := hstart.exists_full (c := c) (Nat.zero_le _) (by omega)
    obtain ⟨s₂, hrun₂, hstuck⟩ := hfull.exists_stuck (c := c)
    exact hno s₂ (hrun₁.trans hrun₂) hstuck
  · intro hfew s hrun
    exact not_stuck hfew hrun

/-- A context of 193 regular files, called `f`, `ff` and so on. -/
def manyFiles : List Stat := (List.range 193).map fun k => ⟨List.replicate (k + 1) 0x66, 0o644⟩

theorem backlog_stuck :
    ∃ s, Reach (Step ⟨none, fun _ => [], []⟩) (fun _ _ => True) (initial manyFiles) s ∧
      Stuck s := by
  have hstart : Filling manyFiles 0 (initial manyFiles) :=
    ⟨⟨0, rfl⟩, rfl, rfl, rfl, [], rfl, Nat.zero_le _, rfl, .inr rfl⟩
  have hmany : regularFiles manyFiles = 193 := by decide +kernel
  obtain ⟨s₁, hrun₁, hfull⟩ := hstart.exists_full (Nat.zero_le _) (by omega)
  obtain ⟨s₂, hrun₂, hstuck⟩ := hfull.exists_stuck
  exact ⟨s₂, hrun₁.trans hrun₂, hstuck⟩

end BuilderShim.Fssync
