/-
  Fssync/Integrity.lean --- from the archive to the packets.

  `FS.Walk` has `Receive` fetch the context and records the digest it returns;
  `FS.Open` then opens files below the entry of that digest, while other builds use
  the same cache.  Whatever they do, an opened file holds what the archive with
  that digest has for it (`received_opens`), and this is what `DiffCopy` sends for it
  (`archive_served`).
-/
import BuilderShim.Fssync.Boundary
import BuilderShim.Fssync.Serve

set_option autoImplicit false

namespace BuilderShim.Fssync

open BuilderShim.Filepath
open BuilderShim.Fileutils
open BuilderShim.Foundation
open BuilderShim.Posix

/-- `os.Open` of the file and reading it to the end gives `data`. -/
def Opens (fs : FS) (file data : Bytes) : Prop :=
  ∃ p ino, fs.openTarget file = .ok p ∧ fs.RefersTo p ino ∧ (fs.inode ino).data = data

theorem Opens.unique {fs : FS} {file data data' : Bytes} (h : Opens fs file data)
    (h' : Opens fs file data') : data = data' := by
  obtain ⟨p, ino, hp, hino, rfl⟩ := h
  obtain ⟨p', ino', hp', hino', rfl⟩ := h'
  rw [hp] at hp'
  cases hp'
  rw [hino.inj hino']

section

variable {c : CacheSite} {x : Extern} {w₀ w : World} {d : Bytes} {m : Nat → Mode}
  {calls : Nat → Fileutils.Call} {q q' : Pool RecvSig World Nat Reply}

/-! ## What `Receive` returns -/

/-- A call of `Receive` has returned the digest. -/
def Returned (calls : Nat → Fileutils.Call) (q : Pool RecvSig World Nat Reply) (d : Bytes) :
    Prop :=
  ∃ i walked, calls i = .receive ∧ q.threads i = some (.ret (.received (.ok d) walked))

/-- What a reply of `Receive` says about the cache. -/
def Names (c : CacheSite) (r : Reply) (w : World) : Prop :=
  ∀ d walked, r = .received (.ok d) walked → IsDigest d ∧ c.Rooted w ∧ c.Complete w d

theorem receive_names (c : CacheSite) (x : Extern) (m : Mode) (i : Nat) :
    c.RecvTriple m x i (Others (c.Allowed x) i) anyHost (c.Stage i (fun _ => True) Set.univ)
      (Fileutils.Call.prog x c.base .receive) (Names c) := by
  have g := c.among x i
  have hspec := g.receive_spec (m := m) (S := Set.univ) anyFeed g.checked_open
  refine triple_pre (triple_bind hspec fun r => ?_) fun w hw => ⟨hw, trivial⟩
  cases hr : r.1 with
  | error e =>
      refine triple_pre (P := fun _ => True) (triple_ret (Stable.const True) ?_) fun _ _ => trivial
      rintro w - d walked heq
      cases (Reply.received.inj heq).1.symm.trans hr
  | ok d =>
      refine triple_pre (P := fun w => IsDigest d ∧ c.Rooted w ∧ c.Complete w d) ?_ fun w hw => ?_
      · refine triple_ret ?_ ?_
        · rintro w w' (⟨hR, _⟩ | ⟨hR, _⟩) ⟨hd, hroot, hc⟩
          · obtain ⟨j, _, hstep⟩ := g.rely _ _ hR
            exact ⟨hd, hstep.framed.rooted hroot, (hstep.complete hroot hd hc).1⟩
          · exact hR.elim
        · rintro w hw d' walked heq
          have hd' := (Reply.received.inj heq).1.symm.trans hr
          cases hd'
          exact hw
      · unfold CacheSite.Received at hw
        rw [hr] at hw
        obtain ⟨hd, T, hleft⟩ := hw
        exact ⟨hd, hleft.1.rooted, hleft.1.inv.1⟩

theorem startPool_names (hr : c.Rooted w₀) (m : Nat → Mode) (calls : Nat → Fileutils.Call) :
    AllSafe (fun i => callExec (m i) i) (c.Allowed x)
      (fun i r w => calls i = .receive → Names c r w) (startPool x c.base calls w₀) := by
  intro i p hi
  cases hi
  cases hcall : calls i with
  | lookup d =>
      have hsafe := CacheSite.safe_of_recv ((c.among x i).prog_spec (m := m i) (.lookup d))
        (CacheSite.stage_any hr)
      exact hsafe.mono fun _ _ _ heq => by cases hcall.symm.trans heq
  | receive =>
      have hsafe := CacheSite.safe_of_recv (receive_names c x (m i) i) (CacheSite.stage_any hr)
      exact hsafe.mono fun _ _ h _ => h

/-- What was returned is also reported as present. -/
theorem Returned.present (hr : c.Rooted w₀) (hrun : CacheRun m (startPool x c.base calls w₀) q)
    (h : Returned calls q d) : c.Present calls q d := by
  obtain ⟨i, walked, hcall, hret⟩ := h
  have hsafe := (startPool_names (x := x) hr m calls).run CacheSite.dies_allowed hrun
  obtain ⟨hd, hroot, hc⟩ := (hsafe i _ hret).ret hcall d walked rfl
  exact .inl ((CacheSite.answer_true_iff hroot hd).mpr hc)

/-! ## What is opened -/

/-- A regular file of a complete entry is opened where it is. -/
theorem opens_of_view (hroot : c.Rooted w) (hd : IsDigest d) (hc : c.Complete w d) {rel : Loc}
    (hne : rel ≠ []) (hrel : ∀ y ∈ rel, Name y) {perm : Nat} {data : Bytes}
    (hfile : w.fs.view (c.child d) rel = some (.file perm data)) :
    ∃ file, localPath c.base d (joinSlash rel) = some file ∧ Opens w.fs file data := by
  obtain ⟨n, hn, hcontent⟩ := Option.map_eq_some_iff.mp hfile
  obtain ⟨ino, hino, hdata⟩ : ∃ ino, w.fs.RefersTo (c.child d ++ rel) ino ∧
      (w.fs.inode ino).data = data := by
    unfold FS.content at hcontent
    cases hk : n.kind with
    | file ino =>
        rw [hk] at hcontent
        cases hcontent
        exact ⟨ino, ⟨n, hn, hk⟩, rfl⟩
    | dir perm => simp [hk] at hcontent
    | symlink target => simp [hk] at hcontent
  have hdirs : ∀ pre, pre <+: rel → pre ≠ rel → w.fs.isDir (c.child d ++ pre) = true := by
    rintro pre ⟨rest, rfl⟩ hpre
    have hrest : rest ≠ [] := fun hnil => hpre (by rw [hnil, List.append_nil])
    have hsome : w.fs.node (c.child d ++ pre ++ rest) ≠ none := by
      rw [List.append_assoc, hn]
      exact Option.some_ne_none n
    exact FS.isDir_of_below hsome hrest
  obtain ⟨file, hlocal, hopen⟩ := openTarget_inside hroot hd hc hne hrel hdirs hino
  exact ⟨file, hlocal, _, ino, hopen, hino, hdata⟩

/-- The tree of an archive with the digest, and that this is what the entry shows. -/
theorem exists_archive (hr : c.Rooted w₀) (hs : c.Sound x w₀)
    (hrun : CacheRun m (startPool x c.base calls w₀) q) (h : c.Present calls q d) :
    ∃ archive tree, hexEncode (x.sha256 archive) = d ∧
      extract c.umask (emptyTree (maskPerm c.umask 0o700)) (x.untar archive) = some tree ∧
      tree [cacheCompletionMarker] = none ∧
      ∀ rel, rel ≠ [cacheCompletionMarker] → q.state.fs.view (c.child d) rel = tree rel := by
  obtain ⟨hd, _, hc⟩ := h.complete hr hrun
  obtain ⟨_, hsound⟩ := CacheSite.cacheRun_invariant hr hs hrun
  obtain ⟨T, ⟨archive, tree, hhash, htree, rfl⟩, hview⟩ := hsound d hd hc
  refine ⟨archive, tree, hhash, htree, extract_marker_free htree fun hdr hmem => ?_,
    fun rel hrel => ?_⟩
  · exact Bool.eq_false_iff.mpr fun hbelow => CacheSite.not_shown_below htree hmem hbelow hview
  · rw [hview, TreeMap.insert_other hrel]

/-- Any number of calls of `Receive` and `CachedContextPresent` on one cache, any stream,
failures and crashes.  Once a call has returned a digest, or has reported it as present, there is
an archive with that digest such that every regular file of its tree is opened below the digest,
from then on, with the bytes it has in the archive. -/
theorem received_opens (hr : c.Rooted w₀) (hs : c.Sound x w₀)
    (hrun : CacheRun m (startPool x c.base calls w₀) q)
    (h : c.Present calls q d ∨ Returned calls q d) :
    ∃ archive tree, hexEncode (x.sha256 archive) = d ∧
      extract c.umask (emptyTree (maskPerm c.umask 0o700)) (x.untar archive) = some tree ∧
      ∀ q', CacheRun m q q' → ∀ rel perm data, tree rel = some (.file perm data) →
        ∃ file, localPath c.base d (joinSlash rel) = some file ∧
          ∀ data', Opens q'.state.fs file data' ↔ data' = data := by
  have hp := h.elim id fun h => h.present hr hrun
  obtain ⟨hd, _, _⟩ := hp.complete hr hrun
  obtain ⟨archive, tree, hhash, htree, hfree, hview⟩ := exists_archive hr hs hrun hp
  refine ⟨archive, tree, hhash, htree, fun q' hrun' rel perm data hfile => ?_⟩
  obtain ⟨hroot', hc', hview'⟩ := hp.kept hr hrun hrun'
  have hmarker : rel ≠ [cacheCompletionMarker] := by
    rintro rfl
    cases hfree.symm.trans hfile
  have hshown : q'.state.fs.view (c.child d) rel = some (.file perm data) := by
    rw [hview', hview rel hmarker, hfile]
  have hne : rel ≠ [] := by
    rintro rfl
    obtain ⟨perm', hdir⟩ := (extract_grows htree).isDir (emptyTree_isDir _)
    cases hdir.symm.trans hfile
  have hnames : ∀ y ∈ rel, Name y := fun y hy =>
    q'.state.fs.names _ (fun hnone => by cases (FS.view_eq_none_iff.mpr hnone).symm.trans hshown) y
      (List.mem_append_right _ hy)
  obtain ⟨file, hlocal, hopens⟩ := opens_of_view hroot' hd hc' hne hnames hshown
  exact ⟨file, hlocal, fun data' => ⟨fun h' => h'.unique hopens, fun heq => heq ▸ hopens⟩⟩

/-! ## What is sent -/

/-- The sender's files are opened below the digest, each at its own time. -/
def OpensBelow (m : Nat → Mode) (base d : Bytes) (q : Pool RecvSig World Nat Reply)
    (entries : List Stat) (sender : Sender) : Prop :=
  ∀ path, Offered entries path → sender.synthetic path = none →
    ∃ q' file, CacheRun m q q' ∧ localPath base d path = some file ∧
      Opens q'.state.fs file (sender.contents path)

/-- The sender's entries come from the walk of the tree below the digest. -/
def WalkedBelow (c : CacheSite) (d : Bytes) (fs : FS) (entries : List Stat) (sender : Sender) :
    Prop :=
  ∃ t ops p requests answer, fs.Shows (c.child d) t ∧
    Trace (walkTree (join c.base d) t (join c.base d)) ops p ∧
    ∀ st ∈ entries, ∃ e ∈ walkCalls sender.proxy requests answer (visited ops), st = statOf e

/-- The bytes of a path that the walk of the entry has offered are those in the archive. -/
theorem contents_eq (hr : c.Rooted w₀)
    (hrun : CacheRun m (startPool x c.base calls w₀) q) (h : c.Present calls q d) {sender : Sender}
    {entries : List Stat} (hwalk : WalkedBelow c d q.state.fs entries sender)
    (hopen : OpensBelow m c.base d q entries sender) {tree : TreeMap}
    (hview : ∀ rel, rel ≠ [cacheCompletionMarker] → q.state.fs.view (c.child d) rel = tree rel)
    {path : Bytes} (hoffered : Offered entries path) (hfile : sender.synthetic path = none) :
    ∃ rel perm, path = joinSlash rel ∧ tree rel = some (.file perm (sender.contents path)) := by
  obtain ⟨t, ops, p, requests, answer, ht, htrace, hentries⟩ := hwalk
  obtain ⟨hd, _, _⟩ := h.complete hr hrun
  have hbase : join c.base d = render c.rooted (c.parts ++ [d]) := CacheSite.join_base c hd.name
  rw [hbase] at htrace
  obtain ⟨rel, perm, data, rfl, hne, hmarker, hrel, hget⟩ := get_of_offered ht.wf
    (c.parts_clean.append (List.forall_mem_singleton.mpr hd.name)) htrace hentries hoffered hfile
  obtain ⟨q', file, hrun', hlocal, hopens⟩ := hopen _ hoffered hfile
  obtain ⟨hroot', hc', hview'⟩ := h.kept hr hrun hrun'
  have hshown : q.state.fs.view (c.child d) rel = some (.file perm data) :=
    (ht.get rel).symm.trans hget
  obtain ⟨file', hlocal', hopens'⟩ := opens_of_view hroot' hd hc' hne hrel
    ((hview' rel).trans hshown)
  rw [hlocal] at hlocal'
  cases hlocal'
  refine ⟨rel, perm, rfl, ?_⟩
  rw [← hview rel hmarker, hshown, hopens.unique hopens']

/-- A call has returned a digest, or reported it as present, and the sender announces what the
walk of that entry finds, at most `2 ^ 32` entries, and opens the files in it.  Numbers are
requested once they are announced, each at most once.  Whatever else uses the cache, whatever
fails and in whatever order the sender's goroutines move, what is sent for a regular file that was
requested is the beginning of one of the Dockerfile inputs of the request, or of what an archive
with that digest has for the path, with the empty packet after the whole. -/
theorem archive_served (hr : c.Rooted w₀) (hs : c.Sound x w₀)
    (hrun : CacheRun m (startPool x c.base calls w₀) q)
    (h : c.Present calls q d ∨ Returned calls q d) {sender : Sender}
    {entries : List Stat} (hwalk : WalkedBelow c d q.state.fs entries sender)
    (hlen : entries.length ≤ 2 ^ 32) (hopen : OpensBelow m c.base d q entries sender)
    {s : State} (hserve : Reach (Step sender) Requesting (initial entries) s) :
    ∃ archive tree, hexEncode (x.sha256 archive) = d ∧
      extract c.umask (emptyTree (maskPerm c.umask 0o700)) (x.untar archive) = some tree ∧
      ∀ id ∈ requested s.shared.received, ∀ st, (stats s.shared.sent)[id.toNat]? = some st →
        fileCanRequestData st.mode = true →
        ∃ bytes rest, Service.Served bytes (s.shared.dataOf id ++ rest) ∧
          (sender.synthetic st.path = some bytes ∨
            ∃ rel perm, st.path = joinSlash rel ∧ tree rel = some (.file perm bytes)) := by
  have hp := h.elim id fun h => h.present hr hrun
  obtain ⟨archive, tree, hhash, htree, _, hview⟩ := exists_archive hr hs hrun hp
  refine ⟨archive, tree, hhash, htree, fun id hid st hst hreg => ?_⟩
  have hkept := kept_of_reach hlen hserve
  obtain ⟨st', hst', hentry, hwant⟩ := hkept.aligned.stat_eq (c := sender) (hkept.placed id hid)
  rw [hst] at hst'
  cases hst'
  have hoffered : Offered entries st.path := ⟨st, List.mem_of_getElem? hentry, rfl, hreg⟩
  obtain ⟨rest, hserved⟩ := hkept.sound.exists_served hid
  rw [hwant] at hserved
  refine ⟨_, rest, hserved, ?_⟩
  cases hsyn : sender.synthetic st.path with
  | some bytes => exact .inl (congrArg some (bytesOf_synthetic hsyn).symm)
  | none =>
      rw [bytesOf_file hsyn]
      exact .inr (contents_eq hr hrun hp hwalk hopen hview hoffered hsyn)

end

/-! ### The context with a file and a symlink -/

section

open CacheSite (Filled contextDigest contextDigest_isDigest exists_filled oneSite tarExtern)

variable {q : Pool RecvSig World Nat Reply}

theorem filled_returned (h : Filled q) : Returned (fun _ => .receive) q contextDigest := by
  obtain ⟨walked, hret⟩ := h.returned
  exact ⟨1, walked, rfl, hret⟩

theorem received_opens_two : ∃ q, Filled q ∧ ∃ tree : TreeMap,
    tree [lit "app"] = some (.file 0o644 (lit "x")) ∧
      ∃ file, localPath oneSite.base contextDigest (lit "app") = some file ∧
        Opens q.state.fs file (lit "x") := by
  obtain ⟨q, hq, _⟩ := exists_filled
  obtain ⟨archive, tree, hhash, htree, hopens⟩ := received_opens CacheSite.bareWorld_rooted
    CacheSite.bareWorld_sound hq.run (.inr (filled_returned hq))
  rw [CacheSite.eq_contextTar hhash] at htree
  have happ : tree [lit "app"] = some (.file 0o644 (lit "x")) := by
    rw [← Option.some.inj (CacheSite.extract_contextTar.symm.trans htree)]
    rfl
  obtain ⟨file, hlocal, hfile⟩ := hopens q .refl [lit "app"] 0o644 (lit "x") happ
  exact ⟨q, hq, tree, happ, file, hlocal, (hfile _).mpr rfl⟩

theorem filled_opensBelow (h : Filled q) :
    OpensBelow (fun _ => .calm) oneSite.base contextDigest q twoEntries twoSender := by
  rintro path ⟨st, hst, rfl, hreg⟩ _
  have happ : st.path = lit "app" := by
    rcases List.mem_cons.mp hst with rfl | hlink
    · rfl
    · rw [List.mem_singleton.mp hlink] at hreg
      cases hreg
  obtain ⟨file, hlocal, hopens⟩ := opens_of_view h.rooted contextDigest_isDigest
    h.legit.complete (List.cons_ne_nil (lit "app") []) (by decide)
    ((h.view [lit "app"]).trans (rfl : _ = some (Content.file 0o644 (lit "x"))))
  rw [happ]
  exact ⟨q, file, .refl, hlocal, hopens⟩

theorem filled_walkedBelow (h : Filled q) :
    WalkedBelow oneSite contextDigest q.state.fs twoEntries twoSender := by
  obtain ⟨ops, p, hwalk, hentries⟩ := exists_walkCalls
  exact ⟨twoTree, ops, p, [], fun _ _ => .proceed, filled_shows h, hwalk, hentries⟩

theorem archive_served_two :
    ∃ q s, Filled q ∧ Reach (Step twoSender) Requesting (initial twoEntries) s ∧
      ∃ archive bytes rest, hexEncode (tarExtern.sha256 archive) = contextDigest ∧
        Service.Served bytes (s.shared.dataOf 0 ++ rest) := by
  obtain ⟨q, hq, _⟩ := exists_filled
  have htau : ∀ s : State, Requesting s .tau := fun _ => trivial
  have hserve : Reach (Step twoSender) Requesting (initial twoEntries) _ := .refl _
  have hserve := hserve.tail (htau _) (.walk (.note rfl))
  have hserve := hserve.tail (htau _) (.walk (.sendStat rfl))
  have hserve := hserve.tail (htau _) (.receive (.next rfl rfl))
  have hserve := hserve.tail (by exact ⟨Nat.one_pos, List.not_mem_nil⟩) (.receive (.recvReq 0 rfl))
  obtain ⟨archive, _, hhash, _, hfiles⟩ := archive_served CacheSite.bareWorld_rooted
    CacheSite.bareWorld_sound hq.run (.inr (filled_returned hq)) (filled_walkedBelow hq)
    (by decide) (filled_opensBelow hq) hserve
  obtain ⟨bytes, rest, hserved, _⟩ := hfiles 0 (List.mem_singleton_self _) _ rfl rfl
  exact ⟨q, _, hq, hserve, archive, bytes, rest, hhash, hserved⟩

end

end BuilderShim.Fssync
