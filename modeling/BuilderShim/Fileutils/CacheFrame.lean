/-
  Fileutils/CacheFrame.lean --- what the protocol of the cache preserves.

  The lemmas follow `Allowed`: what every step keeps (the way to the cache, the
  complete entries, their legitimacy) and what a call may rely on while others
  take steps (its temporaries, the entry whose lock it holds).
-/
import BuilderShim.Fileutils.CacheState
import BuilderShim.Fileutils.UnpackSpec

set_option autoImplicit false

namespace BuilderShim.Fileutils

open BuilderShim.Filepath
open BuilderShim.Foundation
open BuilderShim.Posix

namespace CacheSite

variable {c : CacheSite} {x : Extern} {i j : Nat} {w w' : World} {d t : Bytes}

/-! ## Paths -/

theorem parts_clean (c : CacheSite) : CleanParts c.rooted c.parts :=
  c.pre_clean.append c.names_proper

theorem site_path_nil (c : CacheSite) : c.site.path [] = c.base := by
  rw [Site.path, List.append_nil]
  rfl

theorem join_base (c : CacheSite) (ht : Name t) : join c.base t = c.site.path [t] := by
  rw [← c.site_path_nil]
  exact join_path c.parts_clean (by simp) ht

theorem path_single (c : CacheSite) (t : Bytes) : c.site.path [t] = c.base ++ slash :: t :=
  Os.render_concat c.ne_nil

theorem lock_path (c : CacheSite) (d : Bytes) :
    c.site.path [d] ++ lockSuffix = c.site.path [lockName d] := by
  rw [path_single, path_single, lockName]
  simp

theorem tempPath_base (c : CacheSite) (t : Bytes) : tempPath c.base t = c.site.path [t] := by
  -- the base does not end in a separator
  have hlast : c.base.getLast? ≠ some slash := by
    obtain ⟨front, last, hparts⟩ : ∃ front last, c.parts = front ++ [last] :=
      ⟨_, _, (List.dropLast_append_getLast c.ne_nil).symm⟩
    have hmem : last ∈ c.parts := by simp [hparts]
    have hne := c.parts_clean.ne_nil last hmem
    have hslash := c.parts_clean.no_slash last hmem
    have hform : ∃ pre, c.base = pre ++ last := by
      rw [base, hparts]
      by_cases hf : front = []
      · subst hf
        cases c.rooted with
        | true => exact ⟨[slash], by simp [render, joinSlash]⟩
        | false => exact ⟨[], by simp [render, joinSlash]⟩
      · exact ⟨render c.rooted front ++ [slash], by rw [Os.render_concat hf]; simp⟩
    obtain ⟨pre, hpre⟩ := hform
    rw [hpre, List.getLast?_append_of_ne_nil _ hne, List.getLast?_eq_some_getLast hne]
    intro heq
    exact hslash (by rw [← Option.some.inj heq]; exact List.getLast_mem hne)
  rw [tempPath, if_neg hlast, path_single]

theorem region_path (c : CacheSite) (t : Bytes) (ns : List Bytes) :
    (c.region t).path ns = c.site.path (t :: ns) := by
  simp [Site.path, region, site]

theorem region_clean (c : CacheSite) (ht : Name t) :
    CleanParts (c.region t).rooted (c.region t).parts :=
  c.parts_clean.append (by simpa using ht)

theorem child_append (c : CacheSite) (t : Bytes) (rel : Loc) :
    c.child t ++ rel = c.loc ++ t :: rel := by
  simp [child]

variable {rel : Loc} {t' m : Bytes} {k : Nat}

theorem child_inj {rel' : Loc} (h : c.child t ++ rel = c.child t' ++ rel') :
    t = t' ∧ rel = rel' := by
  rw [child_append, child_append] at h
  have := List.append_cancel_left h
  injection this with h1 h2
  exact ⟨h1, h2⟩

theorem child_ne (h : t ≠ t') : c.child t ≠ c.child t' := by
  intro heq
  have heq' : c.child t ++ [] = c.child t' ++ [] := by rw [heq]
  exact h (child_inj heq').1

theorem child_eq_of_below {q : Loc} (h : c.child t <+: q) (h' : c.child t' <+: q) : t = t' := by
  obtain ⟨rel, rfl⟩ := h
  obtain ⟨rel', heq⟩ := h'
  exact (child_inj heq).1.symm

theorem inner_child (c : CacheSite) (t : Bytes) (rel : Loc) : c.Inner (c.child t ++ rel) := by
  refine ⟨⟨c.names ++ t :: rel, by simp, ?_⟩, .inr ⟨t :: rel, ?_⟩⟩
  · rw [child_append, loc, List.append_assoc]
  · rw [child_append]

/-- The directories on the way to the cache are not below its names. -/
theorem chain_ne_child {ns : List Bytes} (hns : ns <+: c.names) (t : Bytes) (rel : Loc) :
    c.anchor ++ ns ≠ c.child t ++ rel := by
  intro heq
  have hlen := congrArg List.length heq
  have hle := hns.length_le
  rw [child_append, loc] at hlen
  simp at hlen
  omega

/-! ## The way to the cache -/

theorem Rooted.at_pre (h : c.Rooted w) : w.fs.At c.rooted c.pre c.anchor :=
  h.anchored w.fs rfl fun _ _ => rfl

theorem Rooted.at_base (h : c.Rooted w) (hr : c.Ready w) : w.fs.At c.rooted c.parts c.loc :=
  h.at_pre.below c.names_proper hr

theorem Framed.rooted (hf : c.Framed i w w') (h : c.Rooted w) : c.Rooted w' where
  anchored fs' hcwd hout :=
    h.anchored fs' (hcwd.trans hf.cwd) fun q hq => (hout q hq).trans (hf.outside q hq)
  chain ns hne hpre := by
    rcases hf.chain ns hne hpre with hsame | ⟨_, hdir⟩
    · rcases h.chain ns hne hpre with hnone | hdir
      · exact .inl (hsame.trans hnone)
      · refine .inr ?_
        unfold FS.isDir at hdir ⊢
        rw [hsame]
        exact hdir
    · exact .inr hdir
  umask_eq := hf.umask.trans h.umask_eq

/-- The directories on the way stay. -/
theorem Framed.isDir_chain (hf : c.Framed i w w') {ns : List Bytes} (hns : ns <+: c.names)
    (h : w.fs.isDir (c.anchor ++ ns) = true) : w'.fs.isDir (c.anchor ++ ns) = true := by
  unfold FS.isDir at h ⊢
  by_cases hn : ns = []
  · rw [hn, List.append_nil] at h ⊢
    rw [hf.outside c.anchor]
    · exact h
    · rintro ⟨⟨rel, hrel, heq⟩, _⟩
      exact hrel (List.self_eq_append_right.mp heq)
  · rcases hf.chain ns hn hns with hsame | ⟨_, hdir⟩
    · rw [hsame]
      exact h
    · exact hdir

theorem Framed.ready (hf : c.Framed i w w') (h : c.Ready w) : c.Ready w' :=
  hf.isDir_chain (List.prefix_refl _) h

theorem Allowed.framed (h : c.Allowed x i w w') : c.Framed i w w' := by
  rcases h with h | ⟨d, h⟩
  · exact h.framed
  · exact h.framed

/-! ## What the completion check answers -/

theorem marker_name : Name cacheCompletionMarker := by decide

/-- The answer read off the nodes of the entry. -/
def entryAnswer (c : CacheSite) (w : World) (d : Bytes) : Except Err Bool :=
  match w.fs.node (c.child d) with
  | none => .ok false
  | some n =>
      if n.isDir = false then
        .error (.text (lit "cache path is not a directory: " ++ c.site.path [d]))
      else
        match w.fs.node (c.child d ++ [cacheCompletionMarker]) with
        | none => .ok false
        | some n' =>
            match n'.kind with
            | .file k => .ok (decide ((w.fs.inode k).data = cacheCompletionValue))
            | _ => .error (.text (lit "cache completion marker is not a regular file: " ++
                c.site.path [d, cacheCompletionMarker]))

theorem lstat_child (h : c.Rooted w) (hr : c.Ready w) (ht : Name t) :
    w.fs.lstat (c.site.path [t]) =
      match w.fs.node (c.child t) with
      | none => .error .noent
      | some n => .ok (w.fs.content n).info := by
  have hloc : w.fs.locate (c.site.path [t]) = .ok (c.child t) := by
    have := (h.at_base hr).locate_names [] (c := t) (by simp) ht
      (by simpa [Ready] using hr)
    simpa [Site.path, site, child] using this
  cases hn : w.fs.node (c.child t) with
  | none => simp only [FS.lstat, hloc, hn]
  | some n => simp only [FS.lstat, hloc, hn]

theorem locate_in (h : c.Rooted w) (hr : c.Ready w) (ht : Name t)
    (hdir : w.fs.isDir (c.child t) = true) (hm : Name m) :
    w.fs.locate (c.site.path [t, m]) = .ok (c.child t ++ [m]) := by
  have := (h.at_base hr).locate_names [t] (c := m) (by simpa using ht) hm hdir
  simpa [Site.path, site, child] using this

theorem lstat_in (h : c.Rooted w) (hr : c.Ready w) (ht : Name t)
    (hdir : w.fs.isDir (c.child t) = true) (hm : Name m) :
    w.fs.lstat (c.site.path [t, m]) =
      match w.fs.node (c.child t ++ [m]) with
      | none => .error .noent
      | some n => .ok (w.fs.content n).info := by
  cases hn : w.fs.node (c.child t ++ [m]) with
  | none => simp only [FS.lstat, locate_in h hr ht hdir hm, hn]
  | some n => simp only [FS.lstat, locate_in h hr ht hdir hm, hn]

/-- Reading a regular file in an entry. -/
theorem fileAt_in (h : c.Rooted w) (hr : c.Ready w) (ht : Name t)
    (hdir : w.fs.isDir (c.child t) = true) (hm : Name m) (hk : w.fs.RefersTo (c.child t ++ [m]) k) :
    w.fs.fileAt (c.site.path [t, m]) = .ok k := by
  obtain ⟨n, hn, hkind⟩ := hk
  have hres := (h.at_base hr).resolve_names [t] (c := m) (by simpa using ht) hm hdir
    (n := n) hn (by simp [hkind])
  have hres' : w.fs.resolve (c.site.path [t, m]) = .ok (c.child t ++ [m]) := by
    simpa [Site.path, site, child] using hres
  obtain ⟨kind, owner⟩ := n
  simp only at hkind
  subst hkind
  simp [FS.fileAt, hres', hn]

/-- While a directory on the way is missing, so is everything in the cache. -/
theorem lstat_unready (h : c.Rooted w) (hr : ¬ c.Ready w) (ht : Name t) :
    w.fs.lstat (c.site.path [t]) = .error .noent := by
  obtain ⟨m, hm⟩ := h.at_pre.locate_below
  have hloc : w.fs.locate (c.site.path [t]) = .error .noent := by
    have hwalk : w.fs.walk m c.anchor c.names = .error .noent :=
      (FS.walk_open h.at_pre.isDir c.names_proper h.chain).trans (if_neg hr)
    have := hm c.names t c.names_proper ht
    rw [hwalk] at this
    simpa [Site.path, site, parts] using this
  rw [FS.lstat, hloc]

theorem observe_lstat {α : Type} (path : Bytes) (k : Except Errno FileInfo → Sys α) (w : World) :
    observe ((Sys.lstat path).bind k) w = observe (k (w.fs.lstat path)) w := rfl

theorem observe_readFile {α : Type} (path : Bytes) (k : Except Errno Bytes → Sys α) (w : World) :
    observe ((Sys.readFile path).bind k) w =
      observe (k ((w.fs.fileAt path).map fun ino => (w.fs.inode ino).data)) w := rfl

theorem join_marker (ht : Name t) :
    join (c.site.path [t]) cacheCompletionMarker = c.site.path [t, cacheCompletionMarker] :=
  join_path c.parts_clean (List.forall_mem_singleton.mpr ht) marker_name

theorem observe_checkCache (h : c.Rooted w) (hd : IsDigest d) :
    observe (checkCache (c.site.path [d])) w = some (c.entryAnswer w d) := by
  unfold checkCache entryAnswer
  simp only [Prog.bind_eq, Prog.pure_eq, observe_lstat, join_marker hd.name]
  by_cases hr : c.Ready w
  · rw [lstat_child h hr hd.name]
    cases hn : w.fs.node (c.child d) with
    | none => rfl
    | some n =>
        simp only [info_type, Node.type]
        cases hk : n.kind with
        | file k => simp [Node.isDir, hk, observe]
        | symlink target => simp [Node.isDir, hk, observe]
        | dir perm =>
            have hdir : w.fs.isDir (c.child d) = true := by simp [FS.isDir, hn, Node.isDir, hk]
            simp only [ne_eq, not_true_eq_false, if_false, Node.isDir, hk, Bool.true_eq_false,
              observe_lstat]
            rw [lstat_in h hr hd.name hdir marker_name]
            cases hn' : w.fs.node (c.child d ++ [cacheCompletionMarker]) with
            | none => rfl
            | some n' =>
                simp only [info_type, Node.type]
                cases hk' : n'.kind with
                | dir perm => simp [observe]
                | symlink target => simp [observe]
                | file k =>
                    simp only [not_true_eq_false, if_false, observe_readFile,
                      fileAt_in h hr hd.name hdir marker_name ⟨n', hn', hk'⟩, Except.map, observe]
  · rw [lstat_unready h hr hd.name]
    have hnone : w.fs.node (c.child d) = none :=
      FS.node_below_eq_none (by simpa [Ready] using hr) (by simp)
    rw [hnone]
    rfl

theorem answer_eq (h : c.Rooted w) (hd : IsDigest d) : c.answer w d = some (c.entryAnswer w d) := by
  unfold answer cachedContextPresent
  have hvalid : validateContextDigest d = .ok () := hd
  rw [hvalid]
  simp only
  rw [join_base c hd.name]
  exact observe_checkCache h hd

/-- `CachedContextPresent` answers true exactly for the complete entries. -/
theorem answer_true_iff (h : c.Rooted w) (hd : IsDigest d) :
    c.answer w d = some (.ok true) ↔ c.Complete w d := by
  rw [answer_eq h hd, Option.some.injEq]
  unfold entryAnswer
  constructor
  · intro heq
    cases hn : w.fs.node (c.child d) with
    | none =>
        rw [hn] at heq
        simp at heq
    | some n =>
        rw [hn] at heq
        simp only at heq
        split at heq
        · cases heq
        rename_i hdir
        cases hn' : w.fs.node (c.child d ++ [cacheCompletionMarker]) with
        | none =>
            rw [hn'] at heq
            simp at heq
        | some n' =>
            rw [hn'] at heq
            simp only at heq
            split at heq
            · rename_i k hk
              refine ⟨?_, k, ⟨n', hn', hk⟩, by simpa using heq⟩
              simpa [FS.isDir, hn] using hdir
            · cases heq
  · rintro ⟨hdir, k, ⟨n', hn', hk⟩, hdata⟩
    obtain ⟨n, hn, hisdir⟩ := FS.isDir_iff.mp hdir
    simp [hn, hisdir, hn', hk, hdata]

/-! ## What every step keeps -/

/-- The inodes of an entry are written by nobody. -/
theorem Framed.inode_entry (hf : c.Framed j w w') (hd : IsDigest d)
    (hk : w.fs.RefersTo (c.child d ++ rel) k) : w'.fs.inode k = w.fs.inode k := by
  by_contra hne
  obtain ⟨t, ht, hpre⟩ := hf.inode k hk.lt hne _ hk
  have htd : t = d := child_eq_of_below hpre (List.prefix_append _ _)
  exact ht.temp.not_digest (htd ▸ hd)

theorem Same.refersTo (h : c.Same w w' t) :
    w'.fs.RefersTo (c.child t ++ rel) k ↔ w.fs.RefersTo (c.child t ++ rel) k := by
  unfold FS.RefersTo
  rw [h rel]

theorem Same.self (h : c.Same w w' t) : w'.fs.node (c.child t) = w.fs.node (c.child t) := by
  have := h []
  rwa [List.append_nil] at this

theorem Same.view (h : c.Same w w' t)
    (hi : ∀ rel k, w.fs.RefersTo (c.child t ++ rel) k → w'.fs.inode k = w.fs.inode k) (rel : Loc) :
    w'.fs.view (c.child t) rel = w.fs.view (c.child t) rel := by
  unfold FS.view
  rw [h rel]
  exact Option.map_congr fun n hn => FS.content_congr fun k hk => hi rel k ⟨n, hn, hk⟩

theorem Same.entryAnswer (h : c.Same w w' d)
    (hi : ∀ rel k, w.fs.RefersTo (c.child d ++ rel) k → w'.fs.inode k = w.fs.inode k) :
    c.entryAnswer w' d = c.entryAnswer w d := by
  unfold CacheSite.entryAnswer
  rw [h.self, h [cacheCompletionMarker]]
  cases hn' : w.fs.node (c.child d ++ [cacheCompletionMarker]) with
  | none => rfl
  | some n' =>
      cases hk : n'.kind with
      | dir perm => simp [hk]
      | symlink target => simp [hk]
      | file k => simp [hk, hi _ k ⟨n', hn', hk⟩]

/-- Removing parts of an entry that is not complete leaves it so. -/
theorem Shrinks.entryAnswer (h : c.Shrinks w w' d)
    (hi : ∀ rel k, w.fs.RefersTo (c.child d ++ rel) k → w'.fs.inode k = w.fs.inode k)
    (hstale : c.entryAnswer w d = .ok false) : c.entryAnswer w' d = .ok false := by
  unfold CacheSite.entryAnswer at hstale ⊢
  have htop := h []
  rw [List.append_nil] at htop
  rcases htop with htop | htop
  · rw [htop]
    cases hn : w.fs.node (c.child d) with
    | none => rfl
    | some n =>
        rw [hn] at hstale
        simp only at hstale ⊢
        split
        · rename_i hdir
          rw [if_pos hdir] at hstale
          cases hstale
        · rename_i hdir
          rw [if_neg hdir] at hstale
          rcases h [cacheCompletionMarker] with hm | hm
          · rw [hm]
            cases hn' : w.fs.node (c.child d ++ [cacheCompletionMarker]) with
            | none => rfl
            | some n' =>
                rw [hn'] at hstale
                cases hk : n'.kind with
                | dir perm => simp [hk] at hstale
                | symlink target => simp [hk] at hstale
                | file k => simpa [hk, hi _ k ⟨n', hn', hk⟩] using hstale
          · rw [hm]
  · rw [htop]

/-- An entry that is not being published keeps its answer. -/
theorem EntryStep.answer (h : c.EntryStep i w w' d) (hf : c.Framed i w w') (hr : c.Rooted w)
    (hd : IsDigest d) : c.answer w' d = c.answer w d := by
  rw [answer_eq hr hd, answer_eq (hf.rooted hr) hd]
  have hi : ∀ rel k, w.fs.RefersTo (c.child d ++ rel) k → w'.fs.inode k = w.fs.inode k :=
    fun rel k hk => hf.inode_entry hd hk
  rcases h with hsame | ⟨ht, _, _⟩ | ⟨d', hd', ht, _, _⟩ | ⟨_, _, hstale, hshrinks⟩
  · rw [hsame.entryAnswer hi]
  · exact absurd hd ht.not_digest
  · exact absurd ht (hd.ne_lockName hd')
  · rw [answer_eq hr hd, Option.some.injEq] at hstale
    rw [hshrinks.entryAnswer hi hstale, hstale]

/-- A step that publishes nothing changes no answer. -/
theorem Tidy.answer (h : c.Tidy i w w') (hr : c.Rooted w) (hd : IsDigest d) :
    c.answer w' d = c.answer w d :=
  (h.entry d).answer h.framed hr hd

/-- A complete entry is touched by nobody. -/
theorem Allowed.complete_same (h : c.Allowed x j w w') (hr : c.Rooted w) (hd : IsDigest d)
    (hc : c.Complete w d) : c.Same w w' d := by
  have htrue := (answer_true_iff hr hd).mpr hc
  have hstep : c.EntryStep j w w' d := by
    rcases h with h | ⟨d', h⟩
    · exact h.entry d
    · refine h.entry d ?_
      rintro rfl
      rw [h.stale] at htrue
      cases htrue
  rcases hstep with hsame | ⟨ht, _, _⟩ | ⟨d', hd', ht, _, _⟩ | ⟨_, _, hstale, _⟩
  · exact hsame
  · exact absurd hd ht.not_digest
  · exact absurd ht (hd.ne_lockName hd')
  · rw [hstale] at htrue
    cases htrue

/-- Complete entries stay complete, with the same contents. -/
theorem Allowed.complete (h : c.Allowed x j w w') (hr : c.Rooted w) (hd : IsDigest d)
    (hc : c.Complete w d) :
    c.Complete w' d ∧ ∀ rel, w'.fs.view (c.child d) rel = w.fs.view (c.child d) rel := by
  have hsame := h.complete_same hr hd hc
  have hi : ∀ rel k, w.fs.RefersTo (c.child d ++ rel) k → w'.fs.inode k = w.fs.inode k :=
    fun rel k hk => h.framed.inode_entry hd hk
  refine ⟨⟨?_, ?_⟩, hsame.view hi⟩
  · have hdir := hc.isDir
    unfold FS.isDir at hdir ⊢
    rw [hsame.self]
    exact hdir
  · obtain ⟨k, hk, hdata⟩ := hc.marker
    exact ⟨k, hsame.refersTo.mpr hk, by rw [hi _ k hk, hdata]⟩

/-- Complete entries are legitimate. -/
def Sound (c : CacheSite) (x : Extern) (w : World) : Prop :=
  ∀ d, IsDigest d → c.Complete w d → c.Legit x w d

theorem Allowed.sound (h : c.Allowed x j w w') (hr : c.Rooted w) (hs : c.Sound x w) :
    c.Sound x w' := by
  intro d hd hc'
  -- an entry is complete afterwards because it was, or because it is published now
  have hkeep : c.answer w' d = c.answer w d → c.Legit x w' d := by
    intro heq
    have hc : c.Complete w d := by
      rw [← answer_true_iff hr hd, ← heq]
      exact (answer_true_iff (h.framed.rooted hr) hd).mpr hc'
    obtain ⟨T, hT, hview⟩ := hs d hd hc
    exact ⟨T, hT, fun rel => ((h.complete hr hd hc).2 rel).trans (hview rel)⟩
  rcases h with h | ⟨d', h⟩
  · exact hkeep (h.answer hr hd)
  · by_cases hdd : d = d'
    · rw [hdd]
      exact h.legit
    · exact hkeep ((h.entry d hdd).answer h.framed hr hd)

end CacheSite

end BuilderShim.Fileutils
