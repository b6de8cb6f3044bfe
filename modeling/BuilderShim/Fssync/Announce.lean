/-
  Fssync/Announce.lean --- the stats that `sender.walk` sends (pkg/fssync/diffcopy.go).

  What is known of a node passes through four records: the `os.FileInfo` of the walk, the
  `FileInfo` of pkg/fileutils, the `types.Stat` that its `Sys` makes, and the entry that
  `fsutil`'s filter wraps around it.  `Sys` sets every field but one.
-/
import BuilderShim.Fssync.Boundary
import BuilderShim.Fssync.Interleave

set_option autoImplicit false

namespace BuilderShim.Fssync

open BuilderShim.Filepath
open BuilderShim.Fileutils
open BuilderShim.Foundation
open BuilderShim.Posix

/-! ## From an entry of the walk to a packet -/

/-- `FileInfo` of pkg/fileutils. -/
structure FileInfoVal where
  nameVal : Bytes
  sizeVal : Int
  modeVal : UInt32
  isDirVal : Bool
  uid : UInt32 := 0
  gid : UInt32 := 0
  linkName : Bytes

/-- `types.Stat`; fields that are not set are zero. -/
structure TypesStat where
  path : Bytes := []
  mode : UInt32 := 0
  uid : UInt32 := 0
  gid : UInt32 := 0
  size : Int := 0
  linkname : Bytes := []
  deriving DecidableEq

/-- The `FileInfo` that `walkCachedEntry` and `emit` hand on. -/
def fileInfoVal (e : WalkEntry) : FileInfoVal where
  nameVal := e.name
  sizeVal := e.info.size
  modeVal := fileMode e.info
  isDirVal := decide (e.info.type = .dir)
  linkName := e.linkName

def FileInfoVal.sys (f : FileInfoVal) : TypesStat where
  path := f.nameVal
  mode := f.modeVal
  uid := f.uid
  gid := f.gid
  linkname := f.linkName

/-- `DirEntryInfo` of a stat, which `filterFS.Walk` calls its callback with. -/
structure DirEntryInfo where
  stat : TypesStat

/-- `Info` of a `DirEntryInfo`, and `Sys` of that. -/
def DirEntryInfo.sys (d : DirEntryInfo) : TypesStat := d.stat

/-- What `sender.walk` has done: the number of the next entry, the files it has noted, and
the `PACKET_STAT` packets, the last of them without a stat. -/
structure WalkState where
  i : UInt32
  files : AList (fun _ : UInt32 => Bytes)
  sent : List (Option TypesStat)

section

variable (sendMsg : List (Option TypesStat) → Verdict)

/-- The callback of `sender.walk`; what `SendMsg` returns depends on what was sent before. -/
def walkCallback (s : WalkState) (de : DirEntryInfo) : Verdict × WalkState :=
  let files := if fileCanRequestData de.sys.mode then s.files.insert s.i de.sys.path else s.files
  (sendMsg s.sent, ⟨s.i + 1, files, s.sent ++ [some de.sys]⟩)

/-- `filterFS.Walk` without patterns hands every entry on. -/
def filterCallback (s : WalkState) (e : WalkEntry) : Verdict × WalkState :=
  walkCallback sendMsg s ⟨(fileInfoVal e).sys⟩

/-- `sender.walk`, when the walk of the cached context visits `visited`. -/
def senderWalk (proxy : Option Proxy) (requested : List Bytes) (visited : List WalkEntry) :
    Verdict × WalkState :=
  let w : SyntheticDockerfileWalker WalkState :=
    ⟨newSyntheticDockerfileWalker proxy requested, ⟨0, ∅, []⟩⟩
  let r := w.run (filterCallback sendMsg) visited
  if r.1 = .proceed then
    (sendMsg r.2.state.sent, { r.2.state with sent := r.2.state.sent ++ [none] })
  else (r.1, r.2.state)

end

/-! ## What is sent -/

section

variable {sendMsg : List (Option TypesStat) → Verdict}

theorem offer_filterCallback (hsend : ∀ sent, sendMsg sent = .proceed) (es : List WalkEntry)
    (s : WalkState) :
    (offer (filterCallback sendMsg) es s).2.sent =
      s.sent ++ es.map fun e => some (fileInfoVal e).sys := by
  induction es generalizing s with
  | nil => exact (List.append_nil _).symm
  | cons e es ih =>
      rw [offer_cons_of_taken (hsend _), ih, List.map_cons, List.append_cons]
      rfl

/-- One stat for each entry that was visited, and the empty one. -/
theorem senderWalk_sent (hsend : ∀ sent, sendMsg sent = .proceed) {proxy : Option Proxy}
    {requested : List Bytes} (hnone : newSyntheticDockerfileWalker proxy requested = [])
    (visited : List WalkEntry) :
    (senderWalk sendMsg proxy requested visited).2.sent =
      (visited.map fun e => some (fileInfoVal e).sys) ++ [none] := by
  unfold senderWalk
  rw [hnone]
  have hrun : SyntheticDockerfileWalker.Offers (filterCallback sendMsg) _ _ _ _ :=
    SyntheticDockerfileWalker.run_offers visited ⟨[], ⟨0, ∅, []⟩⟩
  rw [List.map_nil, mergeBefore_nil] at hrun
  have hproceed := hrun.verdict.trans (offer_all (fun s e => hsend s.sent) visited _)
  dsimp only
  rw [if_pos hproceed, hrun.state, offer_filterCallback hsend]
  rfl

/-- The entries of the sender are the stats as far as it looks at them. -/
theorem senderWalk_entries (hsend : ∀ sent, sendMsg sent = .proceed) {proxy : Option Proxy}
    {requested : List Bytes} (hnone : newSyntheticDockerfileWalker proxy requested = [])
    (visited : List WalkEntry) :
    ((senderWalk sendMsg proxy requested visited).2.sent.filterMap fun packet =>
      packet.map fun st => (⟨st.path, st.mode⟩ : Stat)) = visited.map statOf := by
  rw [senderWalk_sent hsend hnone, List.filterMap_append, List.filterMap_map,
    ← List.filterMap_eq_map]
  exact List.append_nil _

/-- The callback notes what the walk of the sender notes. -/
theorem filterCallback_note (s : Shared) (i : UInt32) (sent : List (Option TypesStat))
    (e : WalkEntry) :
    (filterCallback sendMsg ⟨i, s.files, sent⟩ e).2.files = (s.note (statOf e) i).files := by
  change (if fileCanRequestData (statOf e).mode then s.files.insert i e.name else s.files) = _
  unfold Shared.note
  split <;> rfl

end

/-! ## What a tree calls for -/

/-- The nodes of a cached context, in the order of the walk: all but the root and the
completion marker. -/
def contextNodes (t : Tree) : List (Loc × Content) :=
  (t.walk []).filter fun node => decide (node.1 ≠ [] ∧ node.1 ≠ [cacheCompletionMarker])

/-- A stat says of a node what there is to say. -/
structure DescribesNode (node : Loc × Content) (st : TypesStat) : Prop where
  path : st.path = joinSlash node.1
  mode : st.mode = fileMode node.2.info
  linkname : st.linkname = linkName node.2
  size : ∀ perm data, node.2 = .file perm data → st.size = data.length

/-- The packets describe the tree: a stat for each node, and the empty one. -/
def Describes (t : Tree) (sent : List (Option TypesStat)) : Prop :=
  ∃ sts : List TypesStat, sent = sts.map some ++ [none] ∧
    List.Forall₂ DescribesNode (contextNodes t) sts

/-- The regular files of the context are empty. -/
def NoFileData (t : Tree) : Prop :=
  ∀ node ∈ contextNodes t, ∀ perm data, node.2 = .file perm data → data = []

/-- The entry of a node. -/
def nodeEntry (node : Loc × Content) : WalkEntry :=
  ⟨joinSlash node.1, node.2.info, linkName node.2⟩

theorem callbacks_eq_nodes (t : Tree) : callbacks t [] = (contextNodes t).map nodeEntry := by
  unfold callbacks contextNodes
  rw [← List.filterMap_eq_map, List.filterMap_filter]
  congr 1
  funext node
  unfold callbackAt
  by_cases h : node.1 = [] ∨ node.1 = [cacheCompletionMarker]
  · have hfalse : ¬ (node.1 ≠ [] ∧ node.1 ≠ [cacheCompletionMarker]) := by tauto
    rw [if_pos h, decide_eq_false hfalse]
    rfl
  · rw [if_neg h, decide_eq_true (not_or.mp h)]
    rfl

/-- The size is the one thing that may be wrong. -/
theorem describesNode_iff (node : Loc × Content) :
    DescribesNode node (fileInfoVal (nodeEntry node)).sys ↔
      ∀ perm data, node.2 = .file perm data → data = [] := by
  constructor
  · intro h perm data hfile
    have hsize : (0 : Int) = data.length := h.size perm data hfile
    exact List.eq_nil_of_length_eq_zero (by omega)
  · intro h
    refine ⟨rfl, rfl, rfl, fun perm data hfile => ?_⟩
    rw [h perm data hfile]
    rfl

theorem describes_iff (t : Tree) :
    Describes t (((callbacks t []).map fun e => some (fileInfoVal e).sys) ++ [none]) ↔
      NoFileData t := by
  have hsent : ((callbacks t []).map fun e => some (fileInfoVal e).sys) =
      ((contextNodes t).map fun node => (fileInfoVal (nodeEntry node)).sys).map some := by
    rw [callbacks_eq_nodes, List.map_map, List.map_map]
    rfl
  rw [hsent]
  constructor
  · rintro ⟨sts, hsts, hall⟩
    have hsame := List.map_injective_iff.mpr (Option.some_injective _)
      (List.append_cancel_right hsts)
    subst hsame
    rw [List.forall₂_map_right_iff, List.forall₂_same] at hall
    exact fun node hnode => (describesNode_iff node).mp (hall node hnode)
  · intro h
    refine ⟨_, rfl, ?_⟩
    rw [List.forall₂_map_right_iff, List.forall₂_same]
    exact fun node hnode => (describesNode_iff node).mpr (h node hnode)

/-- The stats of a cached context describe it exactly if its files are empty: no stat carries
a size. -/
theorem senderWalk_describes_iff {rooted : Bool} {parts : List Bytes}
    (hparts : CleanParts rooted parts) {t : Tree} (ht : t.WF) {ops : List RecvSig.Answered}
    {v : Verdict} (htrace : Trace (walkTree (render rooted parts) t (render rooted parts)) ops
      (.ret v)) (hgo : Proceeds ops) {sendMsg : List (Option TypesStat) → Verdict}
    (hsend : ∀ sent, sendMsg sent = .proceed) {proxy : Option Proxy} {requested : List Bytes}
    (hnone : newSyntheticDockerfileWalker proxy requested = []) :
    Describes t (senderWalk sendMsg proxy requested (visited ops)).2.sent ↔ NoFileData t := by
  have hkeeps : Keeps (callbacks t []) ops (.ret v) :=
    walkTree_keeps_order hparts t ht [] (fun _ hx => absurd hx List.not_mem_nil) ops _
      ((List.append_nil parts).symm ▸ htrace)
  rw [senderWalk_sent hsend hnone, (hkeeps.all v rfl hgo).2]
  exact describes_iff t

section

/-- A context of an empty file and a symlink. -/
def emptyFileTree : Tree :=
  .dir 0o700 [(cacheCompletionMarker, .file 0o600 cacheCompletionValue),
    (lit "app", .file 0o644 []), (lit "link", .symlink (lit "/etc/passwd"))]

theorem emptyFileTree_wf : emptyFileTree.WF :=
  ⟨by decide, by decide, trivial, by decide, by decide, trivial, by decide, by decide, trivial,
    trivial⟩

theorem cleanParts_cache : CleanParts true [lit "cache"] := cleanParts_of_names (by decide)

theorem emptyFileTree_noFileData : NoFileData emptyFileTree := by
  have hnodes : contextNodes emptyFileTree =
      [([lit "app"], .file 0o644 []), ([lit "link"], .symlink (lit "/etc/passwd"))] := by
    decide
  unfold NoFileData
  rw [hnodes]
  simp

theorem senderWalk_describes_emptyFile : ∃ ops,
    Trace (walkTree (render true [lit "cache"]) emptyFileTree (render true [lit "cache"])) ops
      (.ret .proceed) ∧ Proceeds ops ∧
    Describes emptyFileTree (senderWalk (fun _ => .proceed) none [] (visited ops)).2.sent := by
  obtain ⟨ops, htrace, hgo, _⟩ := walkTree_completes cleanParts_cache emptyFileTree
    emptyFileTree_wf [] (fun _ hx => absurd hx List.not_mem_nil)
  rw [List.append_nil] at htrace
  exact ⟨ops, htrace, hgo, (senderWalk_describes_iff cleanParts_cache emptyFileTree_wf htrace hgo
    (fun _ => rfl) rfl).mpr emptyFileTree_noFileData⟩

/-- The stat of a file of one byte says that it has none. -/
theorem senderWalk_no_size : ∃ ops,
    Trace (walkTree (render true [lit "cache"]) twoTree (render true [lit "cache"])) ops
      (.ret .proceed) ∧ Proceeds ops ∧
    ¬ Describes twoTree (senderWalk (fun _ => .proceed) none [] (visited ops)).2.sent := by
  obtain ⟨ops, htrace, hgo, hvisited⟩ := walkTree_completes cleanParts_cache twoTree
    twoTree_wf [] (fun _ hx => absurd hx List.not_mem_nil)
  rw [List.append_nil] at htrace
  refine ⟨ops, htrace, hgo, ?_⟩
  rw [senderWalk_sent (fun _ => rfl) rfl, hvisited, describes_iff]
  intro h
  have happ : ([lit "app"], Content.file 0o644 (lit "x")) ∈ contextNodes twoTree := by decide
  exact absurd (h _ happ _ _ rfl) (by decide)

end

end BuilderShim.Fssync
