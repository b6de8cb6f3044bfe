/-
  Fssync/Boundary.lean --- the files served are files of the context.

  The sender opens what the walk has announced as a regular file.  The walk announces
  what it finds in the cached context, which does not change, and the path that
  `FS.Open` puts together leads there through directories only.
-/
import BuilderShim.Fileutils.Chunking
import BuilderShim.Fssync.Align
import BuilderShim.Fssync.Synthetic

set_option autoImplicit false

namespace BuilderShim.Fssync

open BuilderShim.Filepath
open BuilderShim.Fileutils
open BuilderShim.Foundation
open BuilderShim.Posix

/-- `os.FileMode` of a file, without the bits for set-user-id, set-group-id and sticky. -/
def fileMode (info : FileInfo) : UInt32 :=
  (match info.type with
    | .regular => 0
    | .dir => 0x80000000
    | .symlink => 0x08000000) ||| (UInt32.ofNat info.perm &&& 0o777)

/-- `FileInfo.Sys` -/
def statOf (e : WalkEntry) : Stat := ⟨e.name, fileMode e.info⟩

/-- The file `FS.Open` opens; before the walk has recorded the digest it asks the host. -/
def localPath (fsPath checksum path : Bytes) : Option Bytes :=
  if checksum = [] then none else some (join fsPath (checksum ++ slash :: path))

/-- What `FS.Walk` has called its callback with: the walk of the cached context has made the
visits `visited`, and the callback answers as it likes. -/
def walkCalls (proxy : Option Proxy) (requested : List Bytes)
    (answer : List WalkEntry → WalkEntry → Verdict) (visited : List WalkEntry) : List WalkEntry :=
  let w := SyntheticDockerfileWalker.walks (noting answer)
    ⟨newSyntheticDockerfileWalker proxy requested, []⟩ visited
  (w.finish (noting answer)).2.state

theorem fileCanRequestData_fileMode (info : FileInfo) :
    fileCanRequestData (fileMode info) = true ↔ info.type = .regular := by
  have hperm : ∀ type : UInt32, (type ||| (UInt32.ofNat info.perm &&& 0o777)) &&& modeType =
      type &&& modeType := by
    intro type
    have hmask : (0o777 : UInt32).toBitVec &&& modeType.toBitVec = 0#32 := by decide
    apply UInt32.toBitVec_inj.mp
    simp only [UInt32.toBitVec_and, UInt32.toBitVec_or]
    rw [BitVec.and_or_distrib_right, BitVec.and_assoc, hmask, BitVec.and_zero, BitVec.or_zero]
  unfold fileCanRequestData fileMode
  rw [hperm]
  cases info.type <;> decide

/-! ## What the sender opens -/

/-- The path of an entry that is announced as a regular file. -/
def Offered (entries : List Stat) (path : Bytes) : Prop :=
  ∃ st ∈ entries, st.path = path ∧ fileCanRequestData st.mode = true

def WalkPoint.left : WalkPoint → List Stat
  | .entry left _ | .send _ left _ => left
  | .sendLast | .report | .returned => []

def ReceivePoint.handed : ReceivePoint → List SendHandle
  | .push h => [h]
  | .select | .recvMsg | .queue _ | .fin | .returned => []

def WorkerPoint.held : WorkerPoint → List SendHandle
  | .check h | .sendFile h | .copy h _ _ => [h]
  | .recv | .returned => []

/-- Every path on its way to a worker was offered. -/
structure Offering (entries : List Stat) (s : Shared) : Prop where
  walk : ∀ st ∈ s.walk.left, st ∈ entries
  files : ∀ (id : UInt32) (path : Bytes), s.files.lookup id = some path → Offered entries path
  receive : ∀ h ∈ s.receive.handed, Offered entries h.path
  queue : ∀ h ∈ s.sendpipeline.items, Offered entries h.path

section

variable {c : Sender} {entries : List Stat} {s s' : Shared} {e : Event}

theorem Offering.walk_step (h : Offering entries s) (hstep : WalkStep c s e s') :
    Offering entries s' := by
  cases hstep with
  | @note st left i hp =>
      obtain ⟨hrecv, hpipe, _, _, _⟩ := note_frame s st i
      have hleft : ∀ st' ∈ st :: left, st' ∈ entries := by
        have hwalk := h.walk
        rw [hp] at hwalk
        exact hwalk
      obtain ⟨hst, hrest⟩ := List.forall_mem_cons.mp hleft
      refine ⟨hrest, fun id path hlook => ?_, ?_, ?_⟩
      · dsimp only at hlook
        rw [lookup_note] at hlook
        split at hlook
        · rename_i hreg
          exact ⟨st, hst, Option.some.inj hlook, hreg.1⟩
        · exact h.files id path hlook
      · dsimp only
        rw [hrecv]
        exact h.receive
      · dsimp only
        rw [hpipe]
        exact h.queue
  | @sendStat st left i hp =>
      refine ⟨?_, h.files, h.receive, h.queue⟩
      have hwalk := h.walk
      rw [hp] at hwalk
      exact hwalk
  | walkEnd _ | sendLast _ | walkFails _ | sendStatFails _ | sendLastFails _ | report _
  | reportFails _ =>
      exact ⟨fun _ hst => absurd hst List.not_mem_nil, h.files, h.receive, h.queue⟩

theorem Offering.receive_step (h : Offering entries s) (hstep : ReceiveStep s e s') :
    Offering entries s' := by
  cases hstep with
  | @queue id path hp hlook =>
      refine ⟨h.walk, fun id' path' hlook' => ?_, ?_, h.queue⟩
      · by_cases hid : id' = id
        · subst hid
          rw [AList.lookup_erase] at hlook'
          cases hlook'
        · rw [AList.lookup_erase_ne hid] at hlook'
          exact h.files id' path' hlook'
      · exact List.forall_mem_singleton.mpr (h.files id path hlook)
  | @push hd ch hp hsend =>
      refine ⟨h.walk, h.files, fun _ hh => absurd hh List.not_mem_nil, ?_⟩
      have hhanded := h.receive
      rw [hp] at hhanded
      rw [Chan.items_of_send hsend]
      exact List.forall_mem_append.mpr ⟨h.queue, hhanded⟩
  | stop _ _ | next _ _ | recvReq _ _ | recvFin _ | recvErr _ | recvOther _ | recvFails _
  | refuse _ _ | sendFin _ | sendFinFails _ =>
      exact ⟨h.walk, h.files, fun _ hh => absurd hh List.not_mem_nil, h.queue⟩

theorem Offering.worker_step (h : Offering entries s) {w w' : WorkerPoint}
    {new : List WorkerPoint} (hw : ∀ hd ∈ w.held, Offered entries hd.path)
    (hstep : WorkerStep c s w e s' w' new) :
    Offering entries s' ∧ (∀ hd ∈ w'.held, Offered entries hd.path) ∧ new = [] := by
  cases hstep with
  | take hrecv =>
      have hitems := h.queue
      rw [Chan.items_of_recv hrecv] at hitems
      obtain ⟨hhead, hrest⟩ := List.forall_mem_cons.mp hitems
      exact ⟨⟨h.walk, h.files, h.receive, hrest⟩, List.forall_mem_singleton.mpr hhead, rfl⟩
  | drained _ _ | stop _ | openFails _ | copyFails =>
      exact ⟨h, fun _ hh => absurd hh List.not_mem_nil, rfl⟩
  | finish =>
      exact ⟨⟨h.walk, h.files, h.receive, h.queue⟩, fun _ hh => absurd hh List.not_mem_nil, rfl⟩
  | proceed _ | openBytes _ | openFile _ => exact ⟨h, hw, rfl⟩
  | chunk _ _ _ _ => exact ⟨⟨h.walk, h.files, h.receive, h.queue⟩, hw, rfl⟩

/-- The same of the whole state. -/
abbrev State.Offering (entries : List Stat) (s : State) : Prop :=
  s.All (Fssync.Offering entries) fun _ w => ∀ h ∈ w.held, Offered entries h.path

theorem offering_step {s s' : State} (h : s.Offering entries) (hstep : Step c s e s') :
    s'.Offering entries := by
  cases hstep with
  | walk hw => exact ⟨h.shared.walk_step hw, h.task⟩
  | receive hr => exact ⟨h.shared.receive_step hr, h.task⟩
  | cancel => exact ⟨⟨h.shared.walk, h.shared.files, h.shared.receive, h.shared.queue⟩, h.task⟩
  | worker hw =>
      refine Tasks.All.step h hw (fun hI ht hl => ?_) fun _ _ _ hu => hu
      obtain ⟨hI', ht', hnew⟩ := hI.worker_step ht hl
      refine ⟨hI', ht', ?_⟩
      rw [hnew]
      exact fun _ hu => absurd hu List.not_mem_nil

theorem offering_of_reach {C : State → Event → Prop} {s : State}
    (hrun : Reach (Step c) C (initial entries) s) : s.Offering entries := by
  refine hrun.invariant ⟨⟨fun _ hst => hst, ?_, ?_, ?_⟩, ?_⟩ fun _ _ _ h _ hstep =>
    offering_step h hstep
  · intro id path hlook
    cases hlook
  · exact fun _ hh => absurd hh List.not_mem_nil
  · exact fun _ hh => absurd hh List.not_mem_nil
  · intro w hw
    rw [List.eq_of_mem_replicate hw]
    exact fun _ hh => absurd hh List.not_mem_nil

/-- A file is opened for an entry announced as a regular file, and not for the inputs that
the proxy has. -/
theorem opens_offered {s s' : State} {path : Bytes} (h : s.Offering entries)
    (hstep : Step c s (.opens path) s') :
    Offered entries path ∧ c.synthetic path = none := by
  cases hstep with
  | walk hw => cases hw
  | receive hr => cases hr
  | worker hw =>
      cases hw with
      | mk before after hl =>
          have ht := h.task _ (List.mem_append_right before List.mem_cons_self)
          cases hl with
          | openFile hfile => exact ⟨ht _ (List.mem_singleton_self _), hfile⟩

end

/-! ## What is refused -/

/-- The request is refused: the receive loop can do nothing else, and does it. -/
def Refuses (s : State) (id : UInt32) : Prop :=
  (∃ s', ReceiveStep s.shared (.refuse id) s') ∧
    ∀ e s', ReceiveStep s.shared e s' → e = .refuse id

/-- The numbers given to the regular files among the first `k` entries. -/
def numbers (entries : List Stat) (k : Nat) : List UInt32 :=
  ((List.range k).filter fun j => entries[j]?.any fun st => fileCanRequestData st.mode).map
    UInt32.ofNat

/-- The walk has noted the first `k` entries. -/
def WalkPoint.Past (entries : List Stat) (k : Nat) : WalkPoint → Prop
  | .entry left i | .send _ left i => left = entries.drop k ∧ i = UInt32.ofNat k
  | .sendLast | .report | .returned => True

/-- The request being looked at. -/
def ReceivePoint.pending : ReceivePoint → List UInt32
  | .queue id => [id]
  | .select | .recvMsg | .push _ | .fin | .returned => []

/-- A number is accepted at most as often as it is announced, and requests are dealt with
in the order they come. -/
structure Tally (entries : List Stat) (s : Shared) : Prop where
  walk : ∃ k, k ≤ entries.length ∧ s.announced = numbers entries k ∧ s.walk.Past entries k
  balance : ∀ id : UInt32,
    s.accepted.count id + (s.files.lookup id).isSome.toNat ≤ s.announced.count id
  requests : s.receive ≠ .returned → requested s.received = s.accepted ++ s.receive.pending

section

variable {c : Sender} {entries : List Stat} {s s' : Shared} {e : Event}

theorem numbers_succ {k : Nat} {st : Stat} (h : entries[k]? = some st) :
    numbers entries (k + 1) = numbers entries k ++
      if fileCanRequestData st.mode = true then [UInt32.ofNat k] else [] := by
  unfold numbers
  rw [List.range_succ, List.filter_append, List.map_append]
  congr 1
  rw [List.filter_singleton, h, Option.any_some]
  cases fileCanRequestData st.mode <;> rfl

theorem numbers_nodup {k : Nat} (hk : k ≤ 2 ^ 32) : (numbers entries k).Nodup := by
  apply List.Nodup.map_on
  · intro i hi j hj heq
    have hlt : ∀ l ∈ (List.range k).filter fun j =>
        entries[j]?.any fun st => fileCanRequestData st.mode, l < 2 ^ 32 := fun l hl =>
      Nat.lt_of_lt_of_le (List.mem_range.mp (List.mem_filter.mp hl).1) hk
    rw [← toNat_ofNat (hlt i hi), ← toNat_ofNat (hlt j hj), heq]
  · exact List.nodup_range.filter _

theorem note_tally (s : Shared) (st : Stat) (i : UInt32) :
    (s.note st i).accepted = s.accepted ∧ (s.note st i).announced =
      s.announced ++ if fileCanRequestData st.mode = true then [i] else [] := by
  unfold Shared.note
  split
  · exact ⟨rfl, rfl⟩
  · exact ⟨rfl, (List.append_nil _).symm⟩

theorem Tally.note (h : Tally entries s) {st : Stat} {left : List Stat} {i : UInt32}
    (hp : s.walk = .entry (st :: left) i) :
    Tally entries { s.note st i with walk := .send st left (i + 1) } := by
  obtain ⟨hrecv, _, _, _, hreceived⟩ := note_frame s st i
  obtain ⟨haccepted, hannounced⟩ := note_tally s st i
  obtain ⟨k, _, hnumbers, hpast⟩ := h.walk
  rw [hp] at hpast
  obtain ⟨hdrop, rfl⟩ := hpast
  obtain ⟨hget, hlt, hleft⟩ := get_of_drop hdrop.symm
  refine ⟨⟨k + 1, hlt, ?_, hleft.symm, ?_⟩, fun id => ?_, ?_⟩
  · dsimp only
    rw [hannounced, numbers_succ hget, hnumbers]
  · rw [UInt32.ofNat_add]
    rfl
  · have hold := h.balance id
    dsimp only
    rw [haccepted, hannounced, List.count_append, lookup_note]
    by_cases hreg : fileCanRequestData st.mode = true
    · by_cases hid : id = UInt32.ofNat k
      · subst hid
        rw [if_pos ⟨hreg, rfl⟩, if_pos hreg, List.count_singleton_self]
        simp only [Option.isSome_some, Bool.toNat_true]
        omega
      · rw [if_neg fun hsame => hid hsame.2]
        exact Nat.le_trans hold (Nat.le_add_right _ _)
    · rw [if_neg fun hsame => hreg hsame.1]
      exact Nat.le_trans hold (Nat.le_add_right _ _)
  · dsimp only
    rw [hrecv, hreceived, haccepted]
    exact h.requests

theorem Tally.walk_step (h : Tally entries s) (hstep : WalkStep c s e s') : Tally entries s' := by
  obtain ⟨k, hk, hnumbers, hpast⟩ := h.walk
  cases hstep with
  | note hp => exact h.note hp
  | sendStat hp =>
      rw [hp] at hpast
      exact ⟨⟨k, hk, hnumbers, hpast⟩, h.balance, h.requests⟩
  | walkEnd _ | sendLast _ | walkFails _ | sendStatFails _ | sendLastFails _ | report _
  | reportFails _ => exact ⟨⟨k, hk, hnumbers, trivial⟩, h.balance, h.requests⟩

/-- The receive loop goes on without accepting anything. -/
theorem Tally.receive (h : Tally entries s) (hwalk : s'.walk = s.walk)
    (hannounced : s'.announced = s.announced) (haccepted : s'.accepted = s.accepted)
    (hfiles : s'.files = s.files)
    (hrequests : s'.receive ≠ .returned →
      requested s'.received = s.accepted ++ s'.receive.pending) : Tally entries s' := by
  refine ⟨?_, fun id => ?_, ?_⟩
  · rw [hwalk, hannounced]
    exact h.walk
  · rw [haccepted, hfiles, hannounced]
    exact h.balance id
  · rw [haccepted]
    exact hrequests

theorem Tally.receive_step (h : Tally entries s) (hstep : ReceiveStep s e s') :
    Tally entries s' := by
  have hnow : ∀ {p : ReceivePoint}, s.receive = p → p ≠ .returned →
      requested s.received = s.accepted ++ p.pending := by
    intro p hp hne
    rw [← hp]
    exact h.requests (hp ▸ hne)
  have hidle : s.receive = .recvMsg → requested s.received = s.accepted := fun hp =>
    (hnow hp nofun).trans (List.append_nil _)
  cases hstep with
  | next hp _ => exact h.receive rfl rfl rfl rfl fun _ => hnow (p := .select) hp nofun
  | push hp _ => exact h.receive rfl rfl rfl rfl fun _ => hnow (p := .push _) hp nofun
  | recvReq id hp | recvFin hp | recvOther hp =>
      refine h.receive rfl rfl rfl rfl fun _ => ?_
      simp only [requested_append, hidle hp]
      rfl
  | stop _ _ | recvErr _ | recvFails _ | refuse _ _ | sendFin _ | sendFinFails _ =>
      exact h.receive rfl rfl rfl rfl fun hne => absurd rfl hne
  | @queue id path hp hlook =>
      refine ⟨h.walk, fun id' => ?_, fun _ => ?_⟩
      · have hold := h.balance id'
        dsimp only
        rw [List.count_append]
        by_cases hid : id' = id
        · subst hid
          rw [hlook] at hold
          rw [AList.lookup_erase, List.count_singleton_self]
          exact hold
        · rw [AList.lookup_erase_ne hid, List.count_singleton, if_neg]
          · exact hold
          · simpa using fun heq : id = id' => hid heq.symm
      · dsimp only
        rw [hnow hp nofun]
        exact (List.append_nil _).symm

theorem Tally.worker_step (h : Tally entries s) {w w' : WorkerPoint} {new : List WorkerPoint}
    (hstep : WorkerStep c s w e s' w' new) : Tally entries s' := by
  cases hstep with
  | _ => exact ⟨h.walk, h.balance, h.requests⟩

theorem tally_of_reach {C : State → Event → Prop} {s : State}
    (hrun : Reach (Step c) C (initial entries) s) : Tally entries s.shared := by
  have hinitial : Tally entries (initial entries).shared :=
    ⟨⟨0, Nat.zero_le _, rfl, rfl, rfl⟩, fun _ => Nat.le_refl _, fun _ => rfl⟩
  refine hrun.invariant (I := fun s => Tally entries s.shared) hinitial fun s e s' h _ hstep => ?_
  cases hstep with
  | walk hw => exact h.walk_step hw
  | receive hr => exact h.receive_step hr
  | cancel => exact ⟨h.walk, h.balance, h.requests⟩
  | worker hw =>
      cases hw with
      | mk before after hl => exact h.worker_step hl

theorem Tally.refuses {s : State} (h : Tally entries s.shared) {id : UInt32}
    (hp : s.shared.receive = .queue id)
    (hcount : s.shared.announced.count id < (requested s.shared.received).count id) :
    Refuses s id := by
  have hreq : requested s.shared.received = s.shared.accepted ++ [id] := by
    have hreq := h.requests
    rw [hp] at hreq
    exact hreq nofun
  have hnone : s.shared.files.lookup id = none := by
    have hbalance := h.balance id
    rw [hreq, List.count_append, List.count_singleton_self] at hcount
    cases hlook : s.shared.files.lookup id with
    | none => rfl
    | some path =>
        rw [hlook, Option.isSome_some, Bool.toNat_true] at hbalance
        omega
  refine ⟨⟨_, .refuse hp hnone⟩, fun e s' hstep => ?_⟩
  cases hstep with
  | refuse hp' _ =>
      rw [hp] at hp'
      cases hp'
      rfl
  | queue hp' hlook =>
      rw [hp] at hp'
      cases hp'
      rw [hnone] at hlook
      cases hlook
  | stop hp' _ | next hp' _ | recvReq _ hp' | recvFin hp' | recvErr hp' | recvOther hp'
  | recvFails hp' | push hp' _ | sendFin hp' | sendFinFails hp' =>
      rw [hp] at hp'
      cases hp'

end

/-! ## Where the files are -/

/-- What `FS.Walk` hands to its callback was visited in the context, or is an input that the
proxy has. -/
theorem mem_walkCalls {proxy : Option Proxy} {requested : List Bytes}
    {answer : List WalkEntry → WalkEntry → Verdict} {visited : List WalkEntry} {e : WalkEntry}
    (h : e ∈ walkCalls proxy requested answer visited) :
    e ∈ visited ∨ ∃ entry ∈ newSyntheticDockerfileWalker proxy requested, e = entry.emit := by
  have hstart : SyntheticDockerfileWalker.Hands
      (fun e => e ∈ visited ∨ ∃ entry ∈ newSyntheticDockerfileWalker proxy requested,
        e = entry.emit) ⟨newSyntheticDockerfileWalker proxy requested, []⟩ :=
    ⟨fun entry hentry => .inr ⟨entry, hentry, rfl⟩, fun _ he => absurd he List.not_mem_nil⟩
  exact (hstart.walks fun e he => .inl he).emitWhile.calls e h

/-- No file is opened for an input of the proxy. -/
theorem synthetic_emit {c : Sender} {requested : List Bytes} {entry : SyntheticDockerfileEntry}
    (h : entry ∈ newSyntheticDockerfileWalker c.proxy requested)
    (hreg : fileCanRequestData (statOf entry.emit).mode = true) :
    c.synthetic entry.emit.name ≠ none := by
  obtain ⟨p, hproxy, rfl | hfile⟩ := mem_newSyntheticDockerfileWalker h
  · exact absurd ((fileCanRequestData_fileMode _).mp hreg) (by decide)
  · rw [emit_name]
    unfold Sender.synthetic
    rw [hproxy]
    simp only [syntheticFiles, List.mem_cons, List.not_mem_nil, or_false] at hfile
    rcases hfile with rfl | rfl
    · rw [if_pos rfl]
      nofun
    · have hother : syntheticDockerignore ≠ syntheticDockerfile := by decide
      rw [if_neg hother, if_pos rfl]
      nofun

section

variable {c : Sender} {entries : List Stat} {t : Tree} {rooted : Bool} {parts : List Bytes}

/-- What is offered and not an input of the proxy is a regular file of the tree. -/
theorem get_of_offered (ht : t.WF) (hparts : CleanParts rooted parts)
    {ops : List RecvSig.Answered} {p : Recv Verdict}
    (hwalk : Trace (walkTree (render rooted parts) t (render rooted parts)) ops p)
    {requested : List Bytes} {answer : List WalkEntry → WalkEntry → Verdict}
    (hentries : ∀ st ∈ entries, ∃ e ∈ walkCalls c.proxy requested answer (visited ops),
      st = statOf e)
    {path : Bytes} (hoffered : Offered entries path) (hfile : c.synthetic path = none) :
    ∃ rel perm data, path = joinSlash rel ∧ rel ≠ [] ∧ rel ≠ [cacheCompletionMarker] ∧
      (∀ x ∈ rel, Name x) ∧ t.get rel = some (.file perm data) := by
  obtain ⟨st, hst, rfl, hreg⟩ := hoffered
  obtain ⟨e, he, rfl⟩ := hentries st hst
  rcases mem_walkCalls he with hvisited | ⟨entry, hentry, rfl⟩
  · have hkeeps : Keeps (callbacks t []) ops p :=
      walkTree_keeps_order hparts t ht [] (fun _ hx => absurd hx List.not_mem_nil) ops p (by
        rw [List.append_nil]
        exact hwalk)
    obtain ⟨⟨rel, content⟩, hmem, hat⟩ := List.mem_filterMap.mp (hkeeps.sub.subset hvisited)
    unfold callbackAt at hat
    split at hat
    · cases hat
    · rename_i hother
      cases hat
      obtain ⟨names, hnames, hproper, hget⟩ := Tree.get_of_mem_walk t ht [] _ hmem
      dsimp only [List.nil_append] at hnames hget
      subst hnames
      have htype := (fileCanRequestData_fileMode _).mp hreg
      cases content with
      | file perm data =>
          exact ⟨rel, perm, data, rfl, (not_or.mp hother).1, (not_or.mp hother).2, hproper, hget⟩
      | dir perm => cases htype
      | symlink target => cases htype
  · exact absurd hfile (synthetic_emit hentry hreg)

end

/-- The path of a regular file of a complete entry is opened at its place, and the way there
goes through directories. -/
theorem openTarget_inside {c : CacheSite} {w : World} {d : Bytes} (hroot : c.Rooted w)
    (hd : IsDigest d) (hc : c.Complete w d) {rel : Loc} (hne : rel ≠ [])
    (hrel : ∀ x ∈ rel, Name x)
    (hdirs : ∀ pre, pre <+: rel → pre ≠ rel → w.fs.isDir (c.child d ++ pre) = true)
    {ino : Nat} (hino : w.fs.RefersTo (c.child d ++ rel) ino) :
    ∃ file, localPath c.base d (joinSlash rel) = some file ∧
      w.fs.openTarget file = .ok (c.child d ++ rel) := by
  have hname := hd.name
  have hall : ∀ x ∈ d :: rel, Name x := List.forall_mem_cons.mpr ⟨hname, hrel⟩
  have hjoin : joinSlash (d :: rel) = d ++ slash :: joinSlash rel := by
    have hsplit := joinSlash_append (List.cons_ne_nil d []) hne
    simpa [joinSlash] using hsplit
  have hpath : join c.base (d ++ slash :: joinSlash rel) =
      render c.rooted (c.parts ++ d :: rel) := by
    rw [← hjoin]
    exact join_render (d :: rel) c.parts_clean hall (List.cons_ne_nil _ _)
  refine ⟨_, if_neg hname.ne_nil, ?_⟩
  rw [hpath]
  -- the last name is looked up in a directory
  obtain ⟨init, last, rfl⟩ := (List.eq_nil_or_concat' rel).resolve_left hne
  have hlast : init ≠ init ++ [last] := by simp
  have hdir : w.fs.isDir (c.loc ++ d :: init) = true := by
    have := hdirs init (List.prefix_append _ _) hlast
    rwa [CacheSite.child, List.append_assoc] at this
  have hlocate := (hroot.at_base hc.ready).locate_names (d :: init)
    (fun x hx => hall x (by
      rcases List.mem_cons.mp hx with rfl | hx
      · exact List.mem_cons_self
      · exact List.mem_cons_of_mem _ (List.mem_append_left _ hx)))
    (hrel last (List.mem_append_right _ (List.mem_singleton_self _))) hdir
  have hplace : c.loc ++ d :: init ++ [last] = c.child d ++ (init ++ [last]) := by
    simp [CacheSite.child]
  have hparts : c.parts ++ d :: init ++ [last] = c.parts ++ d :: (init ++ [last]) := by simp
  rw [hplace, hparts] at hlocate
  refine FS.openTarget_eq hlocate fun n hn target hk => ?_
  obtain ⟨n', hn', hk'⟩ := hino
  rw [hn] at hn'
  cases hn'
  rw [hk] at hk'
  cases hk'

section

variable {c : CacheSite} {x : Extern} {w₀ : World} {d : Bytes}

/-- A file that the sender opens after the walk is a regular file in the entry of the context,
found without following a symlink, and not the completion marker.  A request is refused for a
number that the walk has not given to a regular file, for one that was requested more often
than it was given, and, unless the numbers wrap around, for any that was requested before. -/
theorem serves_inside (hr : c.Rooted w₀) {m : Nat → Mode} {calls : Nat → Fileutils.Call}
    {q q' : Pool RecvSig World Nat Reply} (hrun : CacheRun m (startPool x c.base calls w₀) q)
    (hp : c.Present calls q d) (hrun' : CacheRun m q q') {t : Tree}
    (ht : q.state.fs.Shows (c.child d) t) {ops : List RecvSig.Answered} {p : Recv Verdict}
    (hwalk : Trace (walkTree (join c.base d) t (join c.base d)) ops p) {sender : Sender}
    {requests : List Bytes} {answer : List WalkEntry → WalkEntry → Verdict} {entries : List Stat}
    (hentries : ∀ st ∈ entries, ∃ e ∈ walkCalls sender.proxy requests answer (visited ops),
      st = statOf e)
    {s : State} (hs : Reach (Step sender) (fun _ _ => True) (initial entries) s) :
    (∀ path s', Step sender s (.opens path) s' → s.shared.checksum = d →
      ∃ file rel ino, localPath c.base s.shared.checksum path = some file ∧
        q'.state.fs.openTarget file = .ok (c.child d ++ rel) ∧
        q'.state.fs.RefersTo (c.child d ++ rel) ino ∧
        rel ≠ [] ∧ rel ≠ [cacheCompletionMarker] ∧
        ∀ pre, pre <+: rel → pre ≠ rel → q'.state.fs.isDir (c.child d ++ pre) = true) ∧
      ∀ id, s.shared.receive = .queue id →
        (id ∉ s.shared.announced ∨
          s.shared.announced.count id < (requested s.shared.received).count id ∨
          (entries.length ≤ 2 ^ 32 ∧ 2 ≤ (requested s.shared.received).count id)) →
        Refuses s id := by
  refine ⟨fun path s' hstep hdigest => ?_, fun id hqueue hwhy => ?_⟩
  · obtain ⟨hd, _, _⟩ := hp.complete hr hrun
    obtain ⟨hroot, hc, hview⟩ := hp.kept hr hrun hrun'
    obtain ⟨hoffered, hfile⟩ := opens_offered (offering_of_reach hs) hstep
    have hbase : join c.base d = render c.rooted (c.parts ++ [d]) := CacheSite.join_base c hd.name
    rw [hbase] at hwalk
    obtain ⟨rel, perm, data, rfl, hne, hmarker, hrel, hget⟩ := get_of_offered ht.wf
      (c.parts_clean.append (List.forall_mem_singleton.mpr hd.name)) hwalk hentries hoffered hfile
    -- the entry shows what the tree listed
    have hshows : ∀ rel, q'.state.fs.view (c.child d) rel = t.get rel := fun rel =>
      (hview rel).trans (ht.get rel).symm
    have hdirs : ∀ pre, pre <+: rel → pre ≠ rel →
        q'.state.fs.isDir (c.child d ++ pre) = true := by
      rintro pre ⟨rest, rfl⟩ hpre
      cases rest with
      | nil => exact absurd (List.append_nil _).symm hpre
      | cons name rest =>
          rw [FS.isDir_iff_view, hshows]
          exact Tree.get_dir_of_below hget
    obtain ⟨ino, hino⟩ : ∃ ino, q'.state.fs.RefersTo (c.child d ++ rel) ino := by
      obtain ⟨n, hn, hcontent⟩ := Option.map_eq_some_iff.mp ((hshows rel).trans hget)
      unfold FS.content at hcontent
      cases hk : n.kind with
      | file ino => exact ⟨ino, n, hn, hk⟩
      | dir perm => simp [hk] at hcontent
      | symlink target => simp [hk] at hcontent
    obtain ⟨file, hlocal, hopen⟩ := openTarget_inside hroot hd hc hne hrel hdirs hino
    rw [hdigest]
    exact ⟨file, rel, ino, hlocal, hopen, hino, hne, hmarker, hdirs⟩
  · have htally := tally_of_reach hs
    refine htally.refuses hqueue ?_
    have hpending := htally.requests
    rw [hqueue] at hpending
    have hcount : 1 ≤ (requested s.shared.received).count id := by
      rw [hpending nofun]
      exact List.count_pos_iff.mpr (List.mem_append_right _ (List.mem_singleton_self _))
    rcases hwhy with hnever | hmore | ⟨hlen, htwice⟩
    · rw [List.count_eq_zero.mpr hnever]
      exact hcount
    · exact hmore
    · obtain ⟨k, hk, hnumbers, _⟩ := htally.walk
      have honce : s.shared.announced.count id ≤ 1 := by
        rw [hnumbers]
        exact List.nodup_iff_count_le_one.mp (numbers_nodup (Nat.le_trans hk hlen)) id
      exact Nat.lt_of_le_of_lt honce htwice

end

/-! ### A context with a file and a symlink -/

section

open CacheSite (Filled barePool contextDigest contextDigest_isDigest exists_filled oneSite)

def twoTree : Tree :=
  .dir 0o700 [(cacheCompletionMarker, .file 0o600 cacheCompletionValue),
    (lit "app", .file 0o644 (lit "x")), (lit "link", .symlink (lit "/etc/passwd"))]

/-- The stats of its walk. -/
def twoEntries : List Stat := [⟨lit "app", 0o644⟩, ⟨lit "link", 0o1000000777⟩]

theorem twoEntries_eq : (callbacks twoTree []).map statOf = twoEntries := by decide

theorem twoTree_wf : twoTree.WF := by
  simp only [twoTree, Posix.Tree.WF, Posix.Tree.WFIn]
  decide

/-- The cache shows it once it is received. -/
theorem filled_shows {q : Pool RecvSig World Nat Reply} (h : Filled q) :
    q.state.fs.Shows (oneSite.child contextDigest) twoTree := by
  refine ⟨twoTree_wf, fun rel => (h.view rel).symm ▸ ?_⟩
  unfold CacheSite.entryOf CacheSite.contextTree
  by_cases hmarker : rel = [cacheCompletionMarker]
  · rw [hmarker]
    rfl
  rw [TreeMap.insert_other hmarker]
  by_cases hlink : rel = [lit "link"]
  · rw [hlink]
    rfl
  rw [TreeMap.insert_other hlink]
  by_cases happ : rel = [lit "app"]
  · rw [happ]
    rfl
  rw [TreeMap.insert_other happ]
  rcases rel with _ | ⟨a, _ | ⟨b, rest⟩⟩
  · rfl
  · simp only [List.cons.injEq, and_true] at hmarker hlink happ
    simp [twoTree, Posix.Tree.get, Posix.Tree.getIn, emptyTree, Ne.symm hmarker,
      Ne.symm hlink, Ne.symm happ]
  · simp [twoTree, Posix.Tree.get, Posix.Tree.getIn, emptyTree]

/-- A sender without Dockerfile inputs. -/
def twoSender : Sender := ⟨none, fun _ => lit "x", contextDigest⟩

/-- After the walk the first worker opens the file that was requested. -/
theorem two_opens : ∃ s s', Reach (Step twoSender) (fun _ _ => True) (initial twoEntries) s ∧
    Step twoSender s (.opens (lit "app")) s' ∧ s.shared.checksum = contextDigest := by
  have htask : ∀ {sh sh' : Shared} {w w' : WorkerPoint} {e : Event},
      WorkerStep twoSender sh w e sh' w' [] →
      Step twoSender ⟨sh, w :: List.replicate 63 .recv⟩ e ⟨sh', w' :: List.replicate 63 .recv⟩ := by
    intro sh sh' w w' e hstep
    have hmk := TaskStep.mk [] (List.replicate 63 WorkerPoint.recv) hstep
    rw [List.append_nil] at hmk
    exact .worker hmk
  have hrun : Reach (Step twoSender) (fun _ _ => True) (initial twoEntries) (initial twoEntries) :=
    .refl _
  have hrun := hrun.tail trivial (.walk (.note rfl))
  have hrun := hrun.tail trivial (.walk (.sendStat rfl))
  have hrun := hrun.tail trivial (.walk (.note rfl))
  have hrun := hrun.tail trivial (.walk (.sendStat rfl))
  have hrun := hrun.tail trivial (.walk (.walkEnd rfl))
  have hrun := hrun.tail trivial (.receive (.next rfl rfl))
  have hrun := hrun.tail trivial (.receive (.recvReq 0 rfl))
  have hrun := hrun.tail trivial (.receive (.queue rfl rfl))
  have hrun := hrun.tail trivial (.receive (.push rfl rfl))
  have hrun := hrun.tail trivial (htask (.take rfl))
  have hrun := hrun.tail trivial (htask (.proceed rfl))
  exact ⟨_, _, hrun, htask (.openFile rfl), rfl⟩

/-- What the walk of the received context calls the sender with. -/
theorem exists_walkCalls : ∃ ops p,
    Trace (walkTree (join oneSite.base contextDigest) twoTree (join oneSite.base contextDigest)) ops
        p ∧
      ∀ st ∈ twoEntries, ∃ e ∈ walkCalls twoSender.proxy [] (fun _ _ => .proceed) (visited ops),
        st = statOf e := by
  have hname := contextDigest_isDigest.name
  obtain ⟨ops, hwalk, _, hvisited⟩ := walkTree_completes
    (oneSite.parts_clean.append (List.forall_mem_singleton.mpr hname)) twoTree twoTree_wf
    [] fun _ hx => absurd hx List.not_mem_nil
  rw [List.append_nil, show render oneSite.rooted (oneSite.parts ++ [contextDigest]) =
    join oneSite.base contextDigest from (CacheSite.join_base oneSite hname).symm] at hwalk
  refine ⟨ops, _, hwalk, ?_⟩
  rw [hvisited, ← twoEntries_eq]
  intro st hst
  obtain ⟨e, he, rfl⟩ := List.mem_map.mp hst
  exact ⟨e, he, rfl⟩

theorem serves_inside_two :
    ∃ q s s', Filled q ∧ Reach (Step twoSender) (fun _ _ => True) (initial twoEntries) s ∧
      Step twoSender s (.opens (lit "app")) s' ∧
      ∃ file rel ino, localPath oneSite.base s.shared.checksum (lit "app") = some file ∧
        q.state.fs.openTarget file = .ok (oneSite.child contextDigest ++ rel) ∧
        q.state.fs.RefersTo (oneSite.child contextDigest ++ rel) ino ∧
        rel ≠ [] ∧ rel ≠ [cacheCompletionMarker] ∧
        ∀ pre, pre <+: rel → pre ≠ rel →
          q.state.fs.isDir (oneSite.child contextDigest ++ pre) = true := by
  obtain ⟨q, hq, _⟩ := exists_filled
  obtain ⟨s, s', hs, hstep, hdigest⟩ := two_opens
  obtain ⟨ops, p, hwalk, hentries⟩ := exists_walkCalls
  exact ⟨q, s, s', hq, hs, hstep, (serves_inside CacheSite.bareWorld_rooted hq.run hq.present .refl
    (filled_shows hq) hwalk hentries hs).1 _ _ hstep hdigest⟩

/-- The number of a file is accepted from the moment the walk notes it.  Here the request comes
before its stat is sent, which then fails: no stat is ever sent, and the request is accepted. -/
theorem accepts_unannounced :
    (∃ q, Filled q ∧ q.state.fs.Shows (oneSite.child contextDigest) twoTree) ∧
      (callbacks twoTree []).map statOf = twoEntries ∧
      ∃ s, Reach (Step twoSender) (fun _ _ => True) (initial twoEntries) s ∧
        s.shared.walk = .returned ∧ stats s.shared.sent = [] ∧
        requested s.shared.received = [0] ∧ s.shared.accepted = [0] := by
  refine ⟨exists_filled.imp fun q hq => ⟨hq.1, filled_shows hq.1⟩, twoEntries_eq, ?_⟩
  have hrun : Reach (Step twoSender) (fun _ _ => True) (initial twoEntries) (initial twoEntries) :=
    .refl _
  have hrun := hrun.tail trivial (.walk (.note rfl))
  have hrun := hrun.tail trivial (.receive (.next rfl rfl))
  have hrun := hrun.tail trivial (.receive (.recvReq 0 rfl))
  have hrun := hrun.tail trivial (.receive (.queue rfl rfl))
  have hrun := hrun.tail trivial (.walk (.sendStatFails rfl))
  have hrun := hrun.tail trivial (.walk (.reportFails rfl))
  exact ⟨_, hrun, rfl, rfl, rfl, rfl⟩

end

end BuilderShim.Fssync
