/-
  Fssync/Align.lean --- the numbers of the walk and the places of the stats agree.

  The walk notes a file before it sends its stat, under the place the stat will have.
  As long as these numbers do not wrap around, a number that was announced for a
  regular file and not requested is in the map, with the path of its stat.
-/
import BuilderShim.Fssync.Backlog

set_option autoImplicit false

namespace BuilderShim.Fssync

open BuilderShim.Foundation

/-- The stats among the packets. -/
def stats (sent : List Packet) : List Stat :=
  sent.filterMap fun
    | .stat st => st
    | .data _ _ | .fin | .err => none

/-- The `PACKET_DATA` among the packets. -/
def dataPackets (sent : List Packet) : List (UInt32 × Bytes) :=
  sent.filterMap fun
    | .data id bytes => some (id, bytes)
    | .stat _ | .fin | .err => none

/-- The numbers that were requested. -/
def requested (received : List Incoming) : List UInt32 :=
  received.filterMap fun
    | .req id => some id
    | .fin | .err | .other => none

/-- Requests are for numbers whose stat was sent, each at most once. -/
def Requesting (s : State) : Event → Prop
  | .recv (.req id) =>
      id.toNat < (stats s.shared.sent).length ∧ id ∉ requested s.shared.received
  | _ => True

/-- How many entries the walk has noted and sent. -/
def WalkPoint.Reached (entries : List Stat) (noted sent : Nat) : WalkPoint → Prop
  | .entry left i => noted = sent ∧ left = entries.drop sent ∧ i = UInt32.ofNat sent
  | .send st left i =>
      noted = sent + 1 ∧ entries.drop sent = st :: left ∧ i = UInt32.ofNat (sent + 1)
  | .sendLast | .report | .returned => sent ≤ noted

/-- Regular files that were noted are in the map until they are requested. -/
def Noted (entries : List Stat) (noted : Nat) (s : Shared) : Prop :=
  ∀ (id : UInt32) (st : Stat), id.toNat < noted → entries[id.toNat]? = some st →
    fileCanRequestData st.mode = true → id ∉ requested s.received →
    (s.files.lookup id).isSome

structure Aligned (entries : List Stat) (s : Shared) : Prop where
  front : stats s.sent = entries.take (stats s.sent).length
  walk : ∃ noted, s.walk.Reached entries noted (stats s.sent).length ∧
    Noted entries noted s
  files : ∀ (id : UInt32) (p : Bytes), s.files.lookup id = some p →
    ∃ st, entries[id.toNat]? = some st ∧ st.path = p
  queue : ∀ id : UInt32, s.receive = .queue id → id ∈ requested s.received ∧
    ∀ st, entries[id.toNat]? = some st → fileCanRequestData st.mode = true →
      (s.files.lookup id).isSome

section

variable {c : Sender} {entries : List Stat} {s s' : Shared} {e : Event}

theorem stats_append (sent : List Packet) (p : Packet) :
    stats (sent ++ [p]) = stats sent ++ stats [p] := List.filterMap_append

theorem requested_append (received : List Incoming) (p : Incoming) :
    requested (received ++ [p]) = requested received ++ requested [p] := List.filterMap_append

theorem WalkPoint.Reached.le {noted sent : Nat} {p : WalkPoint} (h : p.Reached entries noted sent) :
    sent ≤ noted := by
  cases p with
  | entry left i => exact Nat.le_of_eq h.1.symm
  | send st left i =>
      rw [h.1]
      exact Nat.le_succ _
  | sendLast | report | returned => exact h

/-- The number of an entry, if numbers do not wrap around. -/
theorem toNat_ofNat {k : Nat} (hk : k < 2 ^ 32) : (UInt32.ofNat k).toNat = k := by
  rw [UInt32.toNat_ofNat']
  exact Nat.mod_eq_of_lt hk

theorem get_of_drop {k : Nat} {st : Stat} {left : List Stat} (h : entries.drop k = st :: left) :
    entries[k]? = some st ∧ k < entries.length ∧ entries.drop (k + 1) = left := by
  have hget : entries[k]? = some st := by
    rw [← Nat.add_zero k, ← List.getElem?_drop, h]
    rfl
  refine ⟨hget, (List.getElem?_eq_some_iff.mp hget).1, ?_⟩
  rw [← List.drop_drop, h]
  rfl

theorem lookup_note (s : Shared) (st : Stat) (i id : UInt32) :
    (s.note st i).files.lookup id =
      if fileCanRequestData st.mode = true ∧ id = i then some st.path else s.files.lookup id := by
  unfold Shared.note
  by_cases hreg : fileCanRequestData st.mode = true
  · rw [if_pos hreg]
    by_cases hid : id = i
    · rw [if_pos ⟨hreg, hid⟩, hid]
      exact AList.lookup_insert _
    · rw [if_neg fun h => hid h.2]
      exact AList.lookup_insert_ne hid
  · rw [if_neg hreg, if_neg fun h => hreg h.1]

/-- Noting a file takes nothing out of the map. -/
theorem isSome_note {s : Shared} {id : UInt32} (st : Stat) (i : UInt32)
    (h : (s.files.lookup id).isSome) : ((s.note st i).files.lookup id).isSome := by
  rw [lookup_note]
  split
  · rfl
  · exact h

theorem Aligned.note (h : Aligned entries s) (hlen : entries.length ≤ 2 ^ 32) {st : Stat}
    {left : List Stat} {i : UInt32} (hp : s.walk = .entry (st :: left) i) :
    Aligned entries { s.note st i with walk := .send st left (i + 1) } := by
  obtain ⟨hrecv, _, _, hsent, hreceived⟩ := note_frame s st i
  obtain ⟨noted, hreached, hnoted⟩ := h.walk
  rw [hp] at hreached
  obtain ⟨rfl, hdrop, rfl⟩ := hreached
  obtain ⟨hget, hlt, _⟩ := get_of_drop hdrop.symm
  have hnat := toNat_ofNat (Nat.lt_of_lt_of_le hlt hlen)
  refine ⟨by rw [hsent]; exact h.front, ⟨(stats s.sent).length + 1, ?_, ?_⟩, ?_, ?_⟩
  · dsimp only
    rw [hsent]
    refine ⟨rfl, hdrop.symm, ?_⟩
    rw [UInt32.ofNat_add]
    rfl
  · intro id st' hid hget' hreg hnew
    dsimp only at hnew ⊢
    rw [hreceived] at hnew
    rw [lookup_note]
    by_cases heq : id.toNat = (stats s.sent).length
    · rw [heq, hget] at hget'
      cases hget'
      have hi : id = UInt32.ofNat (stats s.sent).length := by
        rw [← heq, UInt32.ofNat_toNat]
      rw [if_pos ⟨hreg, hi⟩]
      rfl
    · rw [if_neg]
      · exact hnoted id st' (by omega) hget' hreg hnew
      · rintro ⟨_, rfl⟩
        exact heq hnat
  · intro id p hlook
    dsimp only at hlook
    rw [lookup_note] at hlook
    split at hlook
    · rename_i hsame
      rw [← Option.some.inj hlook, hsame.2, hnat]
      exact ⟨st, hget, rfl⟩
    · exact h.files id p hlook
  · intro id hq
    dsimp only at hq ⊢
    rw [hrecv] at hq
    rw [hreceived]
    obtain ⟨hmem, hsome⟩ := h.queue id hq
    exact ⟨hmem, fun st' hget' hreg => isSome_note st _ (hsome st' hget' hreg)⟩

theorem Aligned.walk_step (h : Aligned entries s) (hlen : entries.length ≤ 2 ^ 32)
    (hstep : WalkStep c s e s') : Aligned entries s' := by
  obtain ⟨noted, hreached, hnoted⟩ := h.walk
  cases hstep with
  | note hp => exact h.note hlen hp
  | walkEnd hp =>
      rw [hp] at hreached
      exact ⟨h.front, ⟨noted, Nat.le_of_eq hreached.1.symm, hnoted⟩, h.files, h.queue⟩
  | @sendStat st left i hp =>
      rw [hp] at hreached
      obtain ⟨rfl, hdrop, rfl⟩ := hreached
      obtain ⟨hget, _, hleft⟩ := get_of_drop hdrop
      have hstats : stats (s.sent ++ [.stat (some st)]) = stats s.sent ++ [st] := stats_append _ _
      refine ⟨?_, ⟨(stats s.sent).length + 1, ?_, hnoted⟩, h.files, h.queue⟩
      · simp only [Shared.send]
        rw [hstats, List.length_append, List.length_singleton, List.take_add_one, hget, ← h.front]
        rfl
      · simp only [Shared.send]
        rw [hstats, List.length_append, List.length_singleton]
        exact ⟨rfl, hleft.symm, rfl⟩
  | sendLast hp | report hp =>
      have hle := hreached.le
      have hstats : ∀ p : Packet, stats [p] = [] → stats (s.sent ++ [p]) = stats s.sent := by
        intro p hnone
        rw [stats_append, hnone, List.append_nil]
      refine ⟨?_, ⟨noted, ?_, hnoted⟩, h.files, h.queue⟩
      · simp only [Shared.send]
        rw [hstats _ rfl]
        exact h.front
      · simp only [Shared.send]
        rw [hstats _ rfl]
        exact hle
  | walkFails hp | sendStatFails hp | sendLastFails hp | reportFails hp =>
      exact ⟨h.front, ⟨noted, hreached.le, hnoted⟩, h.files, h.queue⟩

/-- The receive loop goes on with nothing new to look up, and the map is as it was. -/
theorem Aligned.receive (h : Aligned entries s) {s' : Shared}
    (hwalk : s'.walk = s.walk) (hstats : stats s'.sent = stats s.sent)
    (hfiles : s'.files = s.files) (hreq : requested s'.received = requested s.received)
    (hqueue : ∀ id, s'.receive ≠ .queue id) : Aligned entries s' := by
  obtain ⟨noted, hreached, hnoted⟩ := h.walk
  refine ⟨by rw [hstats]; exact h.front, ⟨noted, by rw [hwalk, hstats]; exact hreached, ?_⟩,
    by rw [hfiles]; exact h.files, fun id hq => (hqueue id hq).elim⟩
  intro id st
  rw [hreq, hfiles]
  exact hnoted id st

theorem Aligned.receive_step {ws : List WorkerPoint} (h : Aligned entries s)
    (he : Requesting ⟨s, ws⟩ e) (hstep : ReceiveStep s e s') : Aligned entries s' := by
  have hsame : ∀ p : Incoming, requested [p] = [] →
      requested (s.received ++ [p]) = requested s.received := by
    intro p hnone
    rw [requested_append, hnone, List.append_nil]
  cases hstep with
  | stop _ _ | next _ _ | recvFails _ | refuse _ _ | push _ _ | sendFinFails _ =>
      exact h.receive rfl rfl rfl rfl (fun _ hq => by cases hq)
  | recvFin _ | recvErr _ | recvOther _ =>
      exact h.receive rfl rfl rfl (hsame _ rfl) (fun _ hq => by cases hq)
  | sendFin _ =>
      refine h.receive rfl ?_ rfl rfl (fun _ hq => by cases hq)
      simp only [Shared.endReceive, Shared.send]
      rw [stats_append]
      exact List.append_nil _
  | recvReq id hp =>
      obtain ⟨noted, hreached, hnoted⟩ := h.walk
      obtain ⟨hlt, hnew⟩ := he
      have hreq : requested (s.received ++ [.req id]) = requested s.received ++ [id] :=
        requested_append _ _
      refine ⟨h.front, ⟨noted, hreached, ?_⟩, h.files, ?_⟩
      · intro id' st hid hget hreg hnew'
        dsimp only at hnew'
        rw [hreq] at hnew'
        exact hnoted id' st hid hget hreg fun hmem => hnew' (List.mem_append_left _ hmem)
      · intro id' hq
        cases hq
        dsimp only
        rw [hreq]
        refine ⟨List.mem_append_right _ (List.mem_singleton_self _), fun st hget hreg => ?_⟩
        exact hnoted id st (Nat.lt_of_lt_of_le hlt hreached.le) hget hreg hnew
  | @queue id path hp hlook =>
      obtain ⟨noted, hreached, hnoted⟩ := h.walk
      obtain ⟨hmem, _⟩ := h.queue id hp
      have herase : ∀ id', id' ≠ id → (s.files.erase id).lookup id' = s.files.lookup id' :=
        fun id' hne => AList.lookup_erase_ne hne
      refine ⟨h.front, ⟨noted, hreached, ?_⟩, ?_, fun _ hq => by cases hq⟩
      · intro id' st hid hget hreg hnew
        have hne : id' ≠ id := fun heq => hnew (heq ▸ hmem)
        dsimp only
        rw [herase id' hne]
        exact hnoted id' st hid hget hreg hnew
      · intro id' p hlook'
        by_cases hne : id' = id
        · subst hne
          dsimp only at hlook'
          rw [AList.lookup_erase] at hlook'
          cases hlook'
        · dsimp only at hlook'
          rw [herase id' hne] at hlook'
          exact h.files id' p hlook'

theorem Aligned.worker_step {w w' : WorkerPoint} {new : List WorkerPoint}
    (h : Aligned entries s) (hstep : WorkerStep c s w e s' w' new) : Aligned entries s' := by
  have hsend : ∀ id bytes, Aligned entries (s.send (.data id bytes)) := by
    intro id bytes
    have hstats : stats (s.sent ++ [.data id bytes]) = stats s.sent := by
      rw [stats_append]
      exact List.append_nil _
    obtain ⟨noted, hreached, hnoted⟩ := h.walk
    refine ⟨?_, ⟨noted, ?_, hnoted⟩, h.files, h.queue⟩
    · simp only [Shared.send]
      rw [hstats]
      exact h.front
    · simp only [Shared.send]
      rw [hstats]
      exact hreached
  cases hstep with
  | take _ => exact ⟨h.front, h.walk, h.files, h.queue⟩
  | chunk _ _ _ _ | finish => exact hsend _ _
  | _ => exact h

end

theorem Aligned.initial (entries : List Stat) : Aligned entries (Shared.initial entries) where
  front := rfl
  walk := ⟨0, ⟨rfl, rfl, rfl⟩, fun _ _ hlt => absurd hlt (Nat.not_lt_zero _)⟩
  files := fun _ _ h => nomatch h
  queue := fun _ h => nomatch h

section

variable {c : Sender} {entries : List Stat} {s s' : State} {e : Event}

theorem Aligned.step (h : Aligned entries s.shared) (hlen : entries.length ≤ 2 ^ 32)
    (he : Requesting s e) (hstep : Step c s e s') : Aligned entries s'.shared := by
  cases hstep with
  | walk hw => exact h.walk_step hlen hw
  | receive hr => exact h.receive_step he hr
  | worker hw =>
      cases hw with
      | mk before after hlocal => exact h.worker_step hlocal
  | cancel => exact ⟨h.front, h.walk, h.files, h.queue⟩

end

end BuilderShim.Fssync
