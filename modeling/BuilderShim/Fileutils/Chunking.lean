/-
  Fileutils/Chunking.lean --- how an archive is cut into packets does not matter.

  A context that is not in the cache is sent as a header and its archive, in any
  packets.  However the receiver and the goroutine take turns, `Receive` returns the
  digest, the entry is what the archive unpacks to, and the callback is called as it
  would be on that tree alone (`walked`).  If the stream breaks off, `Receive` returns
  an error and the cache answers as before.

  An archive that names something below the completion marker is unpacked, but then
  the marker cannot be written.
-/
import BuilderShim.Fileutils.CacheSafety
import BuilderShim.Fileutils.ReceiveTotal

set_option autoImplicit false

namespace BuilderShim.Fileutils

open BuilderShim.Filepath
open BuilderShim.Foundation
open BuilderShim.Posix
open BuilderShim.Stream

/-! ## The walk as a function of the callback -/

/-- One location of the walk: the verdict, and the calls the callback has had by then. -/
def walkedAt (fn : List WalkEntry → WalkEntry → Verdict) (rel : Loc) (content : Content)
    (seen : List WalkEntry) : Verdict × List WalkEntry :=
  match callbackAt rel content with
  | none => (.proceed, seen)
  | some entry => (fn seen entry, seen ++ [entry])

mutual

/-- The walk of a tree, with a callback that answers from the calls it has had. -/
def walked (fn : List WalkEntry → WalkEntry → Verdict) : Tree → Loc → List WalkEntry →
    Verdict × List WalkEntry
  | .dir perm children, rel, seen =>
      match walkedAt fn rel (.dir perm) seen with
      | (.proceed, seen) => walkedIn fn children rel seen
      | stopped => stopped
  | .file perm data, rel, seen => walkedAt fn rel (.file perm data) seen
  | .symlink target, rel, seen => walkedAt fn rel (.symlink target) seen

def walkedIn (fn : List WalkEntry → WalkEntry → Verdict) : List (Bytes × Tree) → Loc →
    List WalkEntry → Verdict × List WalkEntry
  | [], _, seen => (.proceed, seen)
  | (name, t) :: children, rel, seen =>
      match walked fn t (rel ++ [name]) seen with
      | (.proceed, seen) => walkedIn fn children rel seen
      | (.skipDir, seen) =>
          if t.content.isDir then walkedIn fn children rel seen else (.skipDir, seen)
      | stopped => stopped

end

/-- The error of `filepath.Walk`. -/
def Verdict.err : Verdict → Option Err
  | .fail e => some e
  | .proceed | .skipDir | .skipAll => none

section

variable {i : Nat} {fn : List WalkEntry → WalkEntry → Verdict} {mayEnd : Bool}
variable {P : World → Prop} {rooted : Bool} {parts : List Bytes}

theorem visited_stable (seen : List WalkEntry) :
    Stable (Onward mayEnd) fun l => l.visited = seen :=
  fun _ _ hstep hl => hstep.visited_eq.trans hl

theorem walkCachedEntry_total (hparts : CleanParts rooted parts) {rel : Loc}
    (hrel : ∀ x ∈ rel, Name x) (content : Content) (seen : List WalkEntry) :
    RecvTotal i fn mayEnd (Beside P fun l => l.visited = seen)
      (walkCachedEntry (render rooted parts) (render rooted (parts ++ rel)) content)
      fun v => Beside P fun l => (v, l.visited) = walkedAt fn rel content seen := by
  rw [walkCachedEntry_eq hparts hrel]
  unfold walkedAt
  cases callbackAt rel content with
  | none => exact total_ret fun s hs => ⟨hs.1, congrArg (Prod.mk _) hs.2⟩
  | some entry =>
      refine total_host (.visit entry) (visited_stable seen) (fun l _ => .inl ⟨_, _, rfl, rfl⟩) ?_
      rintro l v l' rfl ⟨rfl, rfl⟩
      rfl

mutual

theorem walkTree_total (hparts : CleanParts rooted parts) (t : Tree) (ht : t.WF) (rel : Loc)
    (hrel : ∀ x ∈ rel, Name x) (seen : List WalkEntry) :
    RecvTotal i fn mayEnd (Beside P fun l => l.visited = seen)
      (walkTree (render rooted parts) t (render rooted (parts ++ rel)))
      fun v => Beside P fun l => (v, l.visited) = walked fn t rel seen := by
  cases t with
  | file perm data =>
      rw [walkTree, walked]
      exact walkCachedEntry_total hparts hrel _ seen
  | symlink target =>
      rw [walkTree, walked]
      exact walkCachedEntry_total hparts hrel _ seen
  | dir perm children =>
      rw [walkTree, walked]
      refine total_bind (walkCachedEntry_total hparts hrel _ seen) fun v s hs => ?_
      rw [← hs.2]
      cases v with
      | proceed => exact walkEntries_total hparts children ht rel hrel _ s ⟨hs.1, rfl⟩
      | skipDir | skipAll | fail e => exact .ret ⟨hs.1, rfl⟩

theorem walkEntries_total (hparts : CleanParts rooted parts) (children : List (Bytes × Tree))
    (hchildren : Tree.WFIn children) (rel : Loc) (hrel : ∀ x ∈ rel, Name x)
    (seen : List WalkEntry) :
    RecvTotal i fn mayEnd (Beside P fun l => l.visited = seen)
      (walkEntries (render rooted parts) children (render rooted (parts ++ rel)))
      fun v => Beside P fun l => (v, l.visited) = walkedIn fn children rel seen := by
  cases children with
  | nil =>
      rw [walkEntries, walkedIn]
      exact total_ret fun s hs => ⟨hs.1, congrArg (Prod.mk _) hs.2⟩
  | cons child children =>
      obtain ⟨name, t⟩ := child
      obtain ⟨hname, _, ht, hrest⟩ := hchildren
      rw [walkEntries, walkedIn, join_name hparts hrel hname]
      refine total_bind (walkTree_total hparts t ht _ (name_append hrel hname) seen)
        fun v s hs => ?_
      rw [← hs.2]
      cases v with
      | proceed => exact walkEntries_total hparts children hrest rel hrel _ s ⟨hs.1, rfl⟩
      | skipDir =>
          dsimp only
          split
          · exact walkEntries_total hparts children hrest rel hrel _ s ⟨hs.1, rfl⟩
          · exact .ret ⟨hs.1, rfl⟩
      | skipAll | fail e => exact .ret ⟨hs.1, rfl⟩

end

end

namespace CacheSite

variable {c : CacheSite} {x : Extern} {i : Nat} {fn : List WalkEntry → WalkEntry → Verdict}
variable {mayEnd : Bool} {J : World → Prop} {S : Set Bytes} {d tn : Bytes} {k : Nat} {A : Bytes}
variable {w₀ : World} {T : TreeMap} {goal : Option Bytes} {packets : List ClientStream}

/-- The walk of a tree that shows `T` has come to this. -/
def Toured (fn : List WalkEntry → WalkEntry → Verdict) (T : TreeMap) (e : Option Err)
    (visited : List WalkEntry) : Prop :=
  ∃ t : Tree, (t.WF ∧ ∀ rel, t.get rel = T rel) ∧
    e = (walked fn t [] []).1.err ∧ visited = (walked fn t [] []).2

theorem walkCachedContext_total {P : World → Prop} (hd : IsDigest d)
    (hP : ∀ w, P w → w.fs.locate (c.site.path [d]) = .ok (c.child d) ∧ c.Kept d T w) :
    RecvTotal i fn mayEnd (Beside P fun l => l.visited = [])
      (walkCachedContext (c.site.path [d]))
      fun e => Beside P fun l => Toured fn T e l.visited := by
  have hparts : CleanParts c.rooted (c.parts ++ [d]) := c.region_clean hd.name
  unfold walkCachedContext
  simp only [Prog.bind_eq, Prog.pure_eq]
  refine total_bind (total_op (.snapshot (c.site.path [d])) (P := P)
    (M := fun (r : Except Errno Tree) w => P w ∧ ∃ t, r = .ok t ∧ t.WF ∧ ∀ rel, t.get rel = T rel)
    (visited_stable []) ?_ ?_) fun r s hs => ?_
  · exact fun w _ => exec_unblocked .calm i (.snapshot _) trivial w
  · intro w r w' hw hE
    obtain ⟨hloc, hkept⟩ := hP w hw
    obtain ⟨rfl, hr⟩ := exec_calm hE
    rw [hloc] at hr
    rcases hr with ⟨hnone, _⟩ | ⟨t, rfl, hshows⟩
    · exact absurd hnone (FS.node_ne_none_of_isDir hkept.1.isDir)
    · exact ⟨hw, t, rfl, hshows.wf, fun rel => (hshows.get rel).trans (hkept.2 rel)⟩
  · obtain ⟨⟨hw, t, rfl, hwf, hget⟩, hl⟩ := hs
    have hwalk : RecvTotal i fn mayEnd (Beside P fun l => l.visited = [])
        (walkTree (c.site.path [d]) t (render c.rooted (c.parts ++ [d] ++ [])))
        fun v => Beside P fun l => (v, l.visited) = walked fn t [] [] :=
      walkTree_total hparts t hwf [] (List.forall_mem_nil _) []
    rw [List.append_nil] at hwalk
    refine (hwalk s ⟨hw, hl⟩).bind fun v s hs => ?_
    obtain ⟨hw, hvisited⟩ := hs
    obtain ⟨hv, hseen⟩ := Prod.ext_iff.mp hvisited
    have htoured : Toured fn T v.err s.2.visited :=
      ⟨t, ⟨hwf, hget⟩, congrArg Verdict.err hv, hseen⟩
    cases v with
    | fail e => exact .ret ⟨hw, htoured⟩
    | proceed | skipDir | skipAll => exact .ret ⟨hw, htoured⟩

/-- The end of a call that has published the entry. -/
theorem walkFetched_total (g : c.Setting x i (fun _ _ => False) (c.Kept d T)) (hd : IsDigest d) :
    RecvTotal i fn mayEnd
      (Beside (c.Fetched i (c.Kept d T) (insert tn S) tn k A) fun l => l.visited = [])
      (walkFetched c.base (.ok (d, some (c.site.path [tn]))))
      fun r => Beside (c.Kept d T) fun l => r.1 = .ok d ∧ Toured fn T r.2 l.visited := by
  unfold walkFetched
  simp only [Prog.bind_eq, Prog.pure_eq, join_base c hd.name]
  refine total_bind (walkCachedContext_total hd (T := T) ?_) fun e => ?_
  · exact fun w hw => ⟨locate_child hw.1.rooted hw.1.ready hd.name, hw.1.inv⟩
  · have hK : Stable (Onward mayEnd) fun l => Toured fn T e l.visited := by
      intro l l' hstep hl
      show Toured fn T e l'.visited
      rw [hstep.visited_eq]
      exact hl
    refine total_bind (total_and (recv_sys (η := tarHost fn mayEnd) hK (g.removeTar (m := .calm)))
      (total_pre (total_any hK (Prog.Ends.perform trivial)) fun s hs => ⟨trivial, hs.2⟩))
      fun r => ?_
    exact total_ret fun s hs => ⟨hs.1.1.1.inv, rfl, hs.1.2⟩

/-! ## A context that is not in the cache -/

/-- The cache is as it was in `w₀`, and the lock file of `d` can be locked. -/
def Clear (c : CacheSite) (i : Nat) (d : Bytes) (w₀ w : World) : Prop :=
  c.Untouched i w₀ w ∧ c.LockFile d w

theorem Clear.setting (x : Extern) (hfresh : ∀ t, ¬ c.OwnTemp i w₀ t) (hd : IsDigest d) :
    c.Setting x i (fun _ _ => False) (c.Clear i d w₀) where
  rely _ _ h := h.elim
  env _ _ _ h := h.elim
  own w w' hr ht h := by
    refine ⟨h.1.tidy x hfresh hr ht, fun n hn => ?_⟩
    rcases Allowed.lockLoc_cases (x := x) (.inl ht) hd with hsame | ⟨k, n', hn', hk⟩
    · exact h.2 n (hsame ▸ hn)
    · rw [hn] at hn'
      obtain rfl := Option.some.inj hn'
      exact ⟨k, hk⟩

theorem Clear.fit (hd : IsDigest d) (hans : c.answer w₀ d = some (.ok false)) :
    c.Fit (c.Clear i d w₀) d :=
  fun _ _ h => ⟨h.2, (h.1.answers d hd).trans hans⟩

/-- On a machine that does not fail the first check finds that the entry is not there. -/
theorem Setting.checked_fit (g : c.Setting x i (fun _ _ => False) J) (hd : IsDigest d)
    (hfit : c.Fit J d) (d' : Bytes) (hd' : IsDigest d') :
    Triple (exec .calm i) (fun _ _ => False) (c.Allowed x i) (c.Settled i J S)
      (checkCache (c.site.path [d'])) (c.Checked (· ≠ d) i J S d') := by
  by_cases heq : d' = d
  · subst heq
    refine triple_pre (P := fun w => ∃ w₁, c.Settled i J S w ∧ w = w₁) ?_ fun w hw => ⟨w, hw, rfl⟩
    refine triple_exists fun w₁ => ?_
    refine triple_fact (φ := c.entryAnswer w₁ d' = .ok false) ?_ fun hanswer => ?_
    · rintro w ⟨hw, rfl⟩
      have := (hfit w hw.rooted hw.inv).2
      rw [answer_eq hw.rooted hd] at this
      exact Option.some.inj this
    have hsame : ∀ w, c.Settled i J S w ∧ w = w₁ →
        c.Rooted w ∧ c.Ready w ∧ c.EntrySame d' w₁ w := by
      rintro w ⟨hw, rfl⟩
      exact ⟨hw.rooted, hw.ready, EntrySame.refl c d' w⟩
    refine triple_post (checkCache_same (Allowed.refl c x i) (fun _ _ h => h.elim) hd hsame) ?_
    rintro r w ⟨hr | ⟨hfails, _⟩, hw, _⟩
    · rw [hr, hanswer]
      exact hw
    · exact absurd hfails.faulty Mode.calm_not_faulty
  · refine triple_post (g.checked_open d' hd') fun r w hw => ?_
    cases r with
    | error e => exact ⟨heq, hw.2⟩
    | ok cached => cases cached <;> exact hw

/-- What is published for an archive that unpacks to `tree`. -/
def entryOf (c : CacheSite) (tree : TreeMap) : TreeMap :=
  tree.insert [cacheCompletionMarker] (.file (maskPerm c.umask 0o600) cacheCompletionValue)

/-- What a call has come to that was sent `goal`. -/
def Outcome (c : CacheSite) (x : Extern) (i : Nat) (w₀ : World) (d : Bytes) (goal : Option Bytes)
    (fn : List WalkEntry → WalkEntry → Verdict) (r : Except Err Bytes × Option Err)
    (s : World × TarLink) : Prop :=
  match r.1 with
  | .error _ => c.FetchFails .calm x (c.Clear i d w₀) (tarFeed fn d goal) (· ≠ d) ∧
      ∀ d', c.answer s.1 d' = c.answer w₀ d'
  | .ok d' => d' = d ∧ ∃ A tree, goal = some A ∧
      extract c.umask (emptyTree (maskPerm c.umask 0o700)) (x.untar A) = some tree ∧
      c.Kept d (c.entryOf tree) s.1 ∧ Toured fn (c.entryOf tree) r.2 s.2.visited

theorem start_waiting (h : Packets d goal packets) :
    Idle (Waiting d goal true true) (startLink packets) :=
  ⟨⟨rfl, .inl ⟨rfl, ⟨rfl, fun _ => rfl⟩, ⟨rfl, rfl, rfl, rfl⟩, rfl, .inl ⟨rfl, h⟩⟩⟩, rfl⟩

/-- The call returns, and with one of these. -/
theorem receive_outcome (hr : c.Rooted w₀) (hfresh : ∀ t, ¬ c.OwnTemp i w₀ t)
    (hunlocked : w₀.Unlocked) (hlock : c.LockFile d w₀) (hd : IsDigest d)
    (hans : c.answer w₀ d = some (.ok false)) (hpackets : Packets d goal packets) :
    Returns (Exec.join Prod.fst Prod.snd (exec .calm i) (fnExec fn))
      (Either Prod.fst Prod.snd (fun _ _ => False) (Onward goal.isNone))
      (c.Outcome x i w₀ d goal fn) (receive x c.base) (w₀, startLink packets) := by
  have g := Clear.setting x hfresh hd
  have hfit : c.Fit (c.Clear i d w₀) d := Clear.fit hd hans
  have hwait := start_waiting hpackets
  have hstage : c.Stage i (c.Clear i d w₀) ∅ w₀ :=
    ⟨hr, ⟨Untouched.refl c i w₀, hlock⟩, fun t ht => absurd ht (hfresh t)⟩
  have hspec : c.RecvTriple .calm x i (fun _ _ => False) (tarHost fn goal.isNone)
      (fun s => s = (w₀, startLink packets)) (fetchContext x c.base)
      fun r s => c.ContextFetched .calm x i (c.Clear i d w₀) ∅ (tarFeed fn d goal)
        (· ≠ d) r s.1 := by
    refine triple_pre (g.fetchContext_spec (tarFeed fn d goal) (g.checked_fit hd hfit)) ?_
    rintro s rfl
    exact ⟨hstage, hwait.1⟩
  have htotal : RecvTotal i fn goal.isNone (fun s => s = (w₀, startLink packets))
      (fetchContext x c.base) fun _ => Beside (fun _ => True) (Idle fun _ => True) := by
    refine total_pre (fetchContext_total (d := d) x c.base) ?_
    rintro s rfl
    exact ⟨hunlocked, hwait⟩
  refine (total_and hspec htotal _ rfl).bind fun r s hs => ?_
  obtain ⟨hfetched, _, _, hidle⟩ := hs
  cases r with
  | error e =>
      refine .ret ⟨hfetched.1, fun d' => ?_⟩
      by_cases hd' : IsDigest d'
      · exact hfetched.2.1.inv.1.answers d' hd'
      · exact answer_invalid hd'
  | ok result =>
      obtain ⟨d', tarFile⟩ := result
      cases tarFile with
      | none =>
          -- the entry is not there, so the first check has not found it
          obtain ⟨⟨_, h, rfl, rfl⟩, hsettled, hcomplete⟩ := hfetched
          have htrue := (answer_true_iff hsettled.rooted hd).mpr hcomplete
          rw [(hfit _ hsettled.rooted hsettled.inv).2] at htrue
          cases htrue
      | some path =>
          obtain ⟨_, h, tn, k, A, ⟨rfl, rfl, rfl, hwhole, _⟩, ⟨hfetched, hcomplete⟩, hshown⟩ :=
            hfetched
          obtain ⟨tree, htree, hview⟩ := hshown hfit
          have hkept : c.Kept d (c.entryOf tree) s.1 := ⟨hcomplete, hview⟩
          have hstate : c.Fetched i (c.Kept d (c.entryOf tree)) (insert tn ∅) tn k A s.1 :=
            ⟨⟨⟨hfetched.1.rooted, hkept, hfetched.1.temps⟩, hfetched.1.ready⟩, hfetched.2⟩
          refine (walkFetched_total (g.stays hd (c.entryOf tree)) hd s ⟨hstate, hidle⟩).mono
            fun r s hs => ?_
          obtain ⟨hkept, hok, htoured⟩ := hs
          unfold Outcome
          rw [hok]
          exact ⟨rfl, A, tree, hwhole, htree, hkept, htoured⟩

/-! ## Every way to send it -/

/-- `Receive` at the start of a transfer. -/
def sending (c : CacheSite) (x : Extern) (w₀ : World) (packets : List ClientStream) :
    Transfer World (Except Err Bytes × Option Err) :=
  ⟨receive x c.base, w₀, startLink packets⟩

/-- `Receive` has returned the digest; the entry is there, and the walk was that of `t`. -/
def Transferred (c : CacheSite) (d : Bytes) (tree : TreeMap)
    (fn : List WalkEntry → WalkEntry → Verdict) (t : Tree)
    (s : Transfer World (Except Err Bytes × Option Err)) : Prop :=
  s.receiver = .ret (.ok d, (walked fn t [] []).1.err) ∧
    s.link.visited = (walked fn t [] []).2 ∧
    ∀ rel, s.world.fs.view (c.child d) rel = c.entryOf tree rel

/-- `Receive` has returned an error, and the cache answers as it did in `w₀`. -/
def Refused (c : CacheSite) (w₀ : World) (s : Transfer World (Except Err Bytes × Option Err)) :
    Prop :=
  (∃ e walkErr, s.receiver = .ret (.error e, walkErr)) ∧
    ∀ d', c.answer s.world d' = c.answer w₀ d'

/-- However the archive `A` with digest `d` is cut into packets and whoever is quicker, the
same is published and the callback is called the same way; and nothing is published if the
stream breaks off. -/
def ChunkingInvariant (c : CacheSite) (x : Extern) (i : Nat) (w₀ : World) (d A : Bytes)
    (tree : TreeMap) : Prop :=
  (∃ t : Tree, (t.WF ∧ ∀ rel, t.get rel = c.entryOf tree rel) ∧
    ∀ packets fn, Packets d (some A) packets →
      Inevitable (DeliveryStep (exec .calm i) fn false) (c.Transferred d tree fn t)
        (c.sending x w₀ packets)) ∧
  ∀ packets fn, Packets d none packets →
    Inevitable (DeliveryStep (exec .calm i) fn true) (c.Refused w₀) (c.sending x w₀ packets)

/-- What every run of the program comes to, every run of the transfer comes to. -/
theorem inevitable_delivery {ρ : Type} {p : Recv ρ} {w : World} {l : TarLink}
    {Q : ρ → World × TarLink → Prop} {G : Transfer World ρ → Prop}
    (h : Returns (Exec.join Prod.fst Prod.snd (exec .calm i) (fnExec fn))
      (Either Prod.fst Prod.snd (fun _ _ => False) (Onward mayEnd)) Q p (w, l))
    (hG : ∀ r s, Q r s → G ⟨.ret r, s.1, s.2⟩) :
    Inevitable (DeliveryStep (exec .calm i) fn mayEnd) G ⟨p, w, l⟩ := by
  refine h.inevitable.map (fun y => (⟨y.1, y.2.1, y.2.2⟩ : Transfer World ρ)) ?_ ?_ ?_
  · rintro ⟨p, w, l⟩ ⟨q, w', l'⟩ (hstep | ⟨⟨hfalse, _⟩ | ⟨hstep, hw⟩, hq⟩)
    · exact .receiver hstep
    · exact hfalse.elim
    · obtain rfl : q = p := hq
      obtain rfl : w' = w := hw
      exact .link hstep
  · rintro ⟨p, w, l⟩ t' hstep
    cases hstep with
    | @receiver q t hstep => exact ⟨(q, t), .inl hstep, rfl⟩
    | @link l' hstep => exact ⟨(p, w, l'), .inr ⟨.inr ⟨hstep, rfl⟩, rfl⟩, rfl⟩
  · rintro ⟨p, s⟩ ⟨r, hp, hQ⟩
    obtain rfl : p = .ret r := hp
    exact hG r s hQ

/-- A header and the archive in one packet. -/
def wholePackets (d A : Bytes) : List ClientStream :=
  [⟨[], some (.buildTransfer ⟨[], [], false, AList.singleton (lit "hash") d⟩)⟩,
    ⟨[], some (.buildTransfer ⟨[], A, true, ∅⟩)⟩]

theorem packets_whole (d A : Bytes) : Packets d (some A) (wholePackets d A) :=
  .header rfl (.last rfl)

variable {tree : TreeMap}

/-- No directory shows an entry with a marker if something is below the marker. -/
theorem not_shown_below {fs : FS} {p : Loc} {hdr : TarEntry}
    (htree : extract c.umask (emptyTree (maskPerm c.umask 0o700)) (x.untar A) = some tree)
    (hmem : hdr ∈ (x.untar A).entries) (hbelow : belowMarker hdr.name = true) :
    ¬ ∀ rel, fs.view p rel = c.entryOf tree rel := by
  intro hview
  obtain ⟨rest, hrest, hthere⟩ := extract_below_marker htree hmem hbelow
  have hne : cacheCompletionMarker :: rest ≠ [cacheCompletionMarker] :=
    fun heq => hrest (List.cons.inj heq).2
  have hdir : fs.isDir (p ++ [cacheCompletionMarker]) = true := by
    refine FS.isDir_of_below (q := rest) (fun hnone => hthere ?_) hrest
    rw [List.append_assoc] at hnone
    have hbeyond := hview (cacheCompletionMarker :: rest)
    rw [entryOf, TreeMap.insert_other hne] at hbeyond
    exact hbeyond.symm.trans (FS.view_eq_none_iff.mpr hnone)
  obtain ⟨perm, hperm⟩ := FS.isDir_iff_view.mp hdir
  rw [hview, entryOf, TreeMap.insert_self] at hperm
  cases hperm

/-- A transfer of an archive that leaves the marker free does not fail. -/
theorem fetch_not_fails (hhash : hexEncode (x.sha256 A) = d)
    (hfit : c.Fit J d)
    (htree : extract c.umask (emptyTree (maskPerm c.umask 0o700)) (x.untar A) = some tree)
    (hfree : ∀ hdr ∈ (x.untar A).entries, belowMarker hdr.name = false) :
    ¬ c.FetchFails .calm x J (tarFeed fn d (some A)) (· ≠ d) := by
  have hd : IsDigest d := hhash ▸ isDigest_hexEncode (x.sha256_length A)
  rintro (hfaulty | hfails | ⟨h, rfl, hbad | hbad | hcomplete | hdownload⟩)
  · exact Mode.calm_not_faulty hfaulty
  · cases hfails
  · exact hbad hd
  · exact hbad rfl
  · cases hcomplete
  · rcases hdownload with hfaulty | hfails | ⟨A', hwhole, hne | hfaulty | hunfit | hnot⟩
    · exact Mode.calm_not_faulty hfaulty
    · cases hfails
    · obtain rfl := Option.some.inj hwhole
      exact hne hhash
    · exact Mode.calm_not_faulty hfaulty
    · exact hunfit hfit
    · obtain rfl := Option.some.inj hwhole
      exact hnot ⟨tree, htree, extract_marker_free htree hfree⟩

/-- A stream that breaks off is refused. -/
theorem Outcome.refused {r : Except Err Bytes × Option Err} {s : World × TarLink}
    (h : c.Outcome x i w₀ d none fn r s) : c.Refused w₀ ⟨.ret r, s.1, s.2⟩ := by
  obtain ⟨r, walkErr⟩ := r
  cases r with
  | error e => exact ⟨⟨e, walkErr, rfl⟩, h.2⟩
  | ok d' =>
      obtain ⟨_, _, _, hgoal, _⟩ := h
      cases hgoal

/-- So is an archive that names something below the marker. -/
theorem Outcome.refused_below {r : Except Err Bytes × Option Err} {s : World × TarLink}
    {hdr : TarEntry} (h : c.Outcome x i w₀ d (some A) fn r s) (hmem : hdr ∈ (x.untar A).entries)
    (hbelow : belowMarker hdr.name = true) : c.Refused w₀ ⟨.ret r, s.1, s.2⟩ := by
  obtain ⟨r, walkErr⟩ := r
  cases r with
  | error e => exact ⟨⟨e, walkErr, rfl⟩, h.2⟩
  | ok d' =>
      obtain ⟨_, A', tree, hgoal, htree, hkept, _⟩ := h
      obtain rfl := Option.some.inj hgoal
      exact absurd hkept.2 (not_shown_below htree hmem hbelow)

/-- The transfer of an archive does not depend on how it is cut into packets, nor on who is
quicker, exactly if the archive names nothing below the completion marker. -/
theorem receive_chunking_iff (hr : c.Rooted w₀) (hfresh : ∀ t, ¬ c.OwnTemp i w₀ t)
    (hunlocked : w₀.Unlocked) (hlock : c.LockFile d w₀)
    (hans : c.answer w₀ d = some (.ok false)) (hhash : hexEncode (x.sha256 A) = d)
    (htree : extract c.umask (emptyTree (maskPerm c.umask 0o700)) (x.untar A) = some tree) :
    c.ChunkingInvariant x i w₀ d A tree ↔
      ∀ hdr ∈ (x.untar A).entries, belowMarker hdr.name = false := by
  have hd : IsDigest d := hhash ▸ isDigest_hexEncode (x.sha256_length A)
  constructor
  · rintro ⟨⟨t, _, hall⟩, _⟩ hdr hmem
    obtain ⟨s, _, _, _, hview⟩ :=
      (hall (wholePackets d A) (fun _ _ => .proceed) (packets_whole d A)).exists_run
    exact Bool.eq_false_iff.mpr fun hbelow => not_shown_below htree hmem hbelow hview
  · intro hfree
    have hdelivers : ∀ packets fn, Packets d (some A) packets →
        Inevitable (DeliveryStep (exec .calm i) fn false)
          (fun s => ∃ t : Tree, (t.WF ∧ ∀ rel, t.get rel = c.entryOf tree rel) ∧
            c.Transferred d tree fn t s) (c.sending x w₀ packets) := by
      intro packets fn hpackets
      refine inevitable_delivery (receive_outcome hr hfresh hunlocked hlock hd hans hpackets) ?_
      rintro ⟨r, walkErr⟩ s houtcome
      cases r with
      | error e =>
          exact absurd houtcome.1 (fetch_not_fails hhash (Clear.fit hd hans) htree hfree)
      | ok d' =>
          obtain ⟨rfl, A', tree', hgoal, htree', hkept, t, ht, rfl, hvisited⟩ := houtcome
          obtain rfl := Option.some.inj hgoal
          obtain rfl := Option.some.inj (htree.symm.trans htree')
          exact ⟨t, ht, rfl, hvisited, hkept.2⟩
    refine ⟨?_, fun packets fn hpackets => ?_⟩
    · -- the tree is found along one run, and there is only one
      obtain ⟨_, _, t, ht, _⟩ :=
        (hdelivers (wholePackets d A) (fun _ _ => .proceed) (packets_whole d A)).exists_run
      refine ⟨t, ht, fun packets fn hpackets => (hdelivers packets fn hpackets).mono ?_⟩
      rintro s ⟨t', ht', htransferred⟩
      have hsame : t' = t := Tree.eq_of_get t' t ht'.1 ht.1 fun rel =>
        (ht'.2 rel).trans (ht.2 rel).symm
      exact hsame ▸ htransferred
    · exact inevitable_delivery (receive_outcome hr hfresh hunlocked hlock hd hans hpackets)
        fun r s houtcome => houtcome.refused

theorem step_call {ρ : Type} {m : Mode} {p p' : Recv ρ} {s t : World × TarLink}
    (h : Step (Exec.join Prod.fst Prod.snd (exec m i) (fnExec fn)) p s p' t) :
    Step (callExec m i) p s.1 p' t.1 := by
  cases h with
  | iter => exact .iter
  | @call op k _ _ r hE =>
      cases op with
      | inl op => exact .call ⟨hE.1, rfl⟩
      | inr op => exact .call ⟨trivial, hE.2⟩

/-- To the cache, such a transfer is a call over some stream. -/
theorem delivery_run {ρ : Type} {s t : Transfer World ρ}
    (h : Relation.ReflTransGen (DeliveryStep (exec .calm i) fn mayEnd) s t) :
    ∃ n, Run (callExec .calm i) (fun _ _ => False) n s.receiver s.world t.receiver t.world := by
  induction h using Relation.ReflTransGen.head_induction_on with
  | refl => exact ⟨0, .refl⟩
  | head hstep _ ih =>
      obtain ⟨n, hrun⟩ := ih
      cases hstep with
      | link h => exact ⟨n, hrun⟩
      | receiver h => exact ⟨n + 1, .own (step_call h) hrun⟩

/-! ### Two tar files -/

def padded (n : Nat) (b : Bytes) : Bytes := b ++ List.replicate (n - b.length) 0

/-- A header block, by its name, mode, size, checksum, type and link. -/
def tarHeader (name mode size sum type link : String) : Bytes :=
  padded 100 (lit name) ++ padded 8 (lit mode) ++ padded 8 (lit "0000000") ++
    padded 8 (lit "0000000") ++ padded 12 (lit size) ++ padded 12 (lit "00000000000") ++
    padded 8 (lit sum) ++ lit type ++ padded 100 (lit link) ++ padded 6 (lit "ustar") ++
    padded 249 (lit "00")

/-- A regular file and a symbolic link that leads out of the context. -/
@[irreducible] def contextTar : Bytes :=
  tarHeader "app" "0000644" "00000000001" "006437" "0" "" ++ padded 512 (lit "x") ++
    tarHeader "link" "0000777" "00000000000" "010700" "2" "/etc/passwd" ++ padded 1024 []

/-- A regular file below the completion marker. -/
@[irreducible] def markerTar : Bytes :=
  tarHeader ".container-builder-shim-complete/x" "0000644" "00000000001" "014356" "0" "" ++
    padded 512 [1] ++ padded 1024 []

def contextDigest : Bytes := lit "a4911835e7a19dbcd2674d011987847b38559bb5345d14950a1dd32fa9f69044"

def markerDigest : Bytes := lit "9189e1062c9d108245f72dc52b8498f56a5f8bd5b8328246a44a2b363a0621b8"

/-- An archive library that has seen the two. -/
def tarExtern : Extern where
  sha256 data :=
    if data = contextTar then (hexDecode contextDigest).getD []
    else if data = markerTar then (hexDecode markerDigest).getD []
    else List.replicate 32 0
  sha256_length data := by
    repeat' split
    all_goals decide
  untar data :=
    if data = contextTar then
      ⟨[⟨lit "app", .reg, [], 0o644, [lit "x"], none⟩,
        ⟨lit "link", .symlink, lit "/etc/passwd", 0o777, [], none⟩], none⟩
    else if data = markerTar then markerArchive
    else ⟨[], none⟩

def contextTree : TreeMap :=
  ((emptyTree 0o700).insert [lit "app"] (.file 0o644 (lit "x"))).insert [lit "link"]
    (.symlink (lit "/etc/passwd"))

theorem markerTar_ne : markerTar ≠ contextTar := by
  unfold markerTar contextTar
  exact fun h => absurd (congrArg List.head? h) (by decide)

theorem sha256_contextTar : hexEncode (tarExtern.sha256 contextTar) = contextDigest := by
  rw [show tarExtern.sha256 contextTar = (hexDecode contextDigest).getD [] from if_pos rfl]
  decide

theorem sha256_markerTar : hexEncode (tarExtern.sha256 markerTar) = markerDigest := by
  rw [show tarExtern.sha256 markerTar = (hexDecode markerDigest).getD [] from
    (if_neg markerTar_ne).trans (if_pos rfl)]
  decide

theorem eq_contextTar {archive : Bytes}
    (h : hexEncode (tarExtern.sha256 archive) = contextDigest) : archive = contextTar := by
  by_contra hcontext
  by_cases hmarker : archive = markerTar
  · rw [hmarker, sha256_markerTar] at h
    exact absurd h (by decide)
  · rw [show tarExtern.sha256 archive = List.replicate 32 0 from
      (if_neg hcontext).trans (if_neg hmarker)] at h
    exact absurd h (by decide)

theorem untar_markerTar : tarExtern.untar markerTar = markerArchive :=
  (if_neg markerTar_ne).trans (if_pos rfl)

theorem extract_contextTar :
    extract 0o022 (emptyTree 0o700) (tarExtern.untar contextTar) = some contextTree := by
  rw [show tarExtern.untar contextTar = _ from if_pos rfl]
  rfl

theorem contextTar_free :
    ∀ hdr ∈ (tarExtern.untar contextTar).entries, belowMarker hdr.name = false := by
  rw [show tarExtern.untar contextTar = _ from if_pos rfl]
  decide

theorem contextDigest_isDigest : IsDigest contextDigest :=
  sha256_contextTar ▸ isDigest_hexEncode (tarExtern.sha256_length _)

theorem markerDigest_isDigest : IsDigest markerDigest :=
  sha256_markerTar ▸ isDigest_hexEncode (tarExtern.sha256_length _)

/-! ### An empty cache -/

/-- The cache `/cache`. -/
def oneSite : CacheSite where
  rooted := true
  pre := []
  names := [lit "cache"]
  anchor := []
  umask := 0o022
  pre_clean := cleanParts_of_names (by decide)
  names_proper := by decide
  ne_nil := by decide

def bareNodes : List (Loc × Node) := [([], ⟨.dir 0o755, 0⟩), ([lit "cache"], ⟨.dir 0o755, 0⟩)]

/-- A machine with nothing but the directory of the cache. -/
def bareWorld : World where
  fs := FS.ofList bareNodes [] [] (by decide)
  locks := fun _ => none
  umask := 0o022

theorem bareWorld_rooted : oneSite.Rooted bareWorld where
  anchored fs' _ _ := fs'.at_root
  chain ns hne hns := by
    rcases List.prefix_cons_iff.mp hns with hnil | ⟨ns', rfl, hns'⟩
    · exact absurd hnil hne
    · rw [List.prefix_nil.mp hns']
      exact .inr (by decide)
  umask_eq := rfl

theorem bareWorld_fresh (t : Bytes) : ¬ oneSite.OwnTemp 1 bareWorld t := by
  rintro ⟨_, n, hn, howner⟩
  have hzero : ∀ e ∈ bareNodes, e.2.owner = 0 := by decide
  have hmem : (oneSite.child t, n) ∈ bareNodes := mem_of_lookup hn
  rw [hzero _ hmem] at howner
  cases howner

theorem bareWorld_entry (t : Bytes) : bareWorld.fs.node (oneSite.child t) = none := by
  simp [bareWorld, bareNodes, oneSite, child, loc, List.lookup_cons]

theorem bareWorld_lockFile (d : Bytes) : oneSite.LockFile d bareWorld := by
  intro n hn
  rw [show bareWorld.fs.node (oneSite.lockLoc d) = none from bareWorld_entry _] at hn
  cases hn

theorem bareWorld_answer (hd : IsDigest d) : oneSite.answer bareWorld d = some (.ok false) := by
  rw [answer_eq bareWorld_rooted hd, entryAnswer, bareWorld_entry]

theorem bareWorld_sound : oneSite.Sound tarExtern bareWorld := by
  intro d _ hc
  exact absurd (bareWorld_entry d) (FS.node_ne_none_of_isDir hc.isDir)

theorem refused_marker (fn : List WalkEntry → WalkEntry → Verdict) :
    Inevitable (DeliveryStep (exec .calm 1) fn false) (oneSite.Refused bareWorld)
      (oneSite.sending tarExtern bareWorld (wholePackets markerDigest markerTar)) := by
  refine inevitable_delivery (receive_outcome bareWorld_rooted bareWorld_fresh (fun _ => rfl)
    (bareWorld_lockFile _) markerDigest_isDigest (bareWorld_answer markerDigest_isDigest)
    (packets_whole _ _)) fun r s houtcome => ?_
  have hmem : markerEntry ∈ (tarExtern.untar markerTar).entries := by
    rw [untar_markerTar]
    exact List.mem_singleton_self _
  exact houtcome.refused_below hmem (by decide)

/-- A header and the archive in two packets. -/
def cutPackets (d A : Bytes) (n : Nat) : List ClientStream :=
  [⟨[], some (.buildTransfer ⟨[], [], false, AList.singleton (lit "hash") d⟩)⟩,
    ⟨[], some (.buildTransfer ⟨[], A.take n, false, ∅⟩)⟩,
    ⟨[], some (.buildTransfer ⟨[], A.drop n, true, ∅⟩)⟩]

theorem packets_cut (d A : Bytes) (n : Nat) : Packets d (some A) (cutPackets d A n) := by
  have hpackets : Packets d (some (A.take n ++ A.drop n)) (cutPackets d A n) :=
    .header rfl (.more rfl (.last rfl))
  rwa [List.take_append_drop] at hpackets

theorem receive_chunking_context :
    Packets contextDigest (some contextTar) (cutPackets contextDigest contextTar 700) ∧
      oneSite.ChunkingInvariant tarExtern 1 bareWorld contextDigest contextTar contextTree := by
  refine ⟨packets_cut _ _ _, (receive_chunking_iff bareWorld_rooted bareWorld_fresh (fun _ => rfl)
    (bareWorld_lockFile _) (bareWorld_answer contextDigest_isDigest) sha256_contextTar
    extract_contextTar).mpr contextTar_free⟩

/-- The archive unpacks, and is sent whole: `Receive` returns an error all the same, whatever the
interleaving and the callback. -/
theorem receive_below_marker :
    (extract 0o022 (emptyTree 0o700) (tarExtern.untar markerTar)).isSome = true ∧
      hexEncode (tarExtern.sha256 markerTar) = markerDigest ∧
      Packets markerDigest (some markerTar) (wholePackets markerDigest markerTar) ∧
      ∀ fn, Inevitable (DeliveryStep (exec .calm 1) fn false) (oneSite.Refused bareWorld)
        (oneSite.sending tarExtern bareWorld (wholePackets markerDigest markerTar)) := by
  refine ⟨?_, sha256_markerTar, packets_whole _ _, refused_marker⟩
  rw [untar_markerTar]
  decide

/-! ### A cache that a receiver has filled -/

/-- All calls are receivers on the empty cache. -/
def barePool : Pool RecvSig World Nat Reply :=
  startPool tarExtern oneSite.base (fun _ => .receive) bareWorld

/-- One of them has received the context. -/
structure Filled (q : Pool RecvSig World Nat Reply) : Prop where
  run : CacheRun (fun _ => .calm) barePool q
  returned : ∃ walked, q.threads 1 = some (.ret (.received (.ok contextDigest) walked))
  view : ∀ rel, q.state.fs.view (oneSite.child contextDigest) rel = oneSite.entryOf contextTree rel

theorem exists_filled : ∃ q, Filled q ∧ q.threads 0 ≠ none := by
  obtain ⟨⟨t, _, hall⟩, _⟩ := (receive_chunking_iff (c := oneSite) bareWorld_rooted bareWorld_fresh
    (fun _ => rfl) (bareWorld_lockFile _) (bareWorld_answer contextDigest_isDigest)
    sha256_contextTar extract_contextTar).mpr contextTar_free
  obtain ⟨s, hrun, hreturned, _, hview⟩ :=
    (hall _ (fun _ _ => .proceed) (packets_cut _ _ 700)).exists_run
  obtain ⟨n, hrun⟩ := delivery_run hrun
  have hpool : CacheRun (fun _ => .calm) barePool _ := PoolRun.of_run hrun (i := 1) rfl rfl
  rw [hreturned] at hpool
  exact ⟨_, ⟨hpool, ⟨_, rfl⟩, hview⟩, Option.some_ne_none _⟩

variable {q : Pool RecvSig World Nat Reply}

theorem Filled.legit (h : Filled q) : oneSite.Legit tarExtern q.state contextDigest :=
  ⟨_, ⟨contextTar, contextTree, sha256_contextTar, extract_contextTar, rfl⟩, h.view⟩

theorem Filled.rooted (h : Filled q) : oneSite.Rooted q.state :=
  (cacheRun_invariant bareWorld_rooted bareWorld_sound h.run).1

theorem Filled.present (h : Filled q) : oneSite.Present (fun _ => .receive) q contextDigest :=
  .inl ((answer_true_iff h.rooted contextDigest_isDigest).mpr h.legit.complete)

theorem present_published_context :
    ∃ q, Filled q ∧ ∃ archive tree, hexEncode (tarExtern.sha256 archive) = contextDigest ∧
      extract 0o022 (emptyTree 0o700) (tarExtern.untar archive) = some tree ∧
      ∀ rel, q.state.fs.view (oneSite.child contextDigest) rel =
        tree.insert [cacheCompletionMarker] (.file 0o600 cacheCompletionValue) rel := by
  obtain ⟨q, hq, _⟩ := exists_filled
  exact ⟨q, hq, present_published bareWorld_rooted bareWorld_sound hq.run hq.present⟩

/-- Another receiver is killed. -/
theorem present_stays_context :
    ∃ q q', Filled q ∧ CacheRun (fun _ => .calm) q q' ∧ q'.threads 0 = none ∧
      oneSite.answer q'.state contextDigest = some (.ok true) := by
  obtain ⟨q, hq, hrunning⟩ := exists_filled
  obtain ⟨p, hp⟩ := Option.ne_none_iff_exists'.mp hrunning
  have hkill : CacheRun (fun _ => .calm) q
      ⟨Function.update q.threads 0 none, q.state.releaseLocks 0⟩ := .single (.die hp rfl)
  exact ⟨q, _, hq, hkill, rfl,
    (present_stays bareWorld_rooted hq.run hq.present hkill).1⟩

/-- A receiver that has unpacked the archive and cannot write the marker. -/
theorem receive_error_atomic_marker :
    ∃ n e walked w, Run (callExec .calm 1) (fun _ _ => False) n (receive tarExtern oneSite.base)
        bareWorld (.ret (.error e, walked)) w ∧
      oneSite.answer w markerDigest = some (.ok false) ∧
      ∀ t, TempName t → w.fs.node (oneSite.child t) = none := by
  obtain ⟨s, hrun, ⟨e, walked, herror⟩, _⟩ := (refused_marker fun _ _ => .proceed).exists_run
  obtain ⟨n, hrun⟩ := delivery_run hrun
  rw [herror] at hrun
  obtain ⟨_, hanswer, htemps⟩ := receive_error_atomic bareWorld_rooted bareWorld_fresh hrun
  have hsweeps : oneSite.Sweeps .calm := by
    rintro t - (⟨_, hfails⟩ | hfails)
    · exact hfails
    · exact hfails
  exact ⟨n, e, walked, _, hrun, (hanswer _).trans (bareWorld_answer markerDigest_isDigest),
    fun t ht => (htemps hsweeps t ht).trans (bareWorld_entry t)⟩

end CacheSite

end BuilderShim.Fileutils
