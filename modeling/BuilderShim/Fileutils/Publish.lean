/-
  Fileutils/Publish.lean --- `publishTar` follows the protocol.

  The steps of `publishTar` among other calls: the lock, the second check, the
  removal of a stale entry, the unpacking into a directory of one's own, the
  marker, the rename, and the cleanup when one of these fails.  The reasons for
  which it may fail are collected on the way.
-/
import BuilderShim.Fileutils.TarFile
import BuilderShim.Fileutils.Reserved

set_option autoImplicit false

namespace BuilderShim.Fileutils

open BuilderShim.Filepath
open BuilderShim.Foundation
open BuilderShim.Posix

namespace CacheSite

/-- The call has its archive file. -/
def Fetched (c : CacheSite) (i : Nat) (J : World → Prop) (S : Set Bytes) (tn : Bytes) (k : Nat)
    (A : Bytes) (w : World) : Prop :=
  c.Settled i J S w ∧ c.TarFile i tn k A w

/-- The lock file of the entry is a regular file if it exists at all. -/
def LockFile (c : CacheSite) (d : Bytes) (w : World) : Prop :=
  ∀ n, w.fs.node (c.lockLoc d) = some n → ∃ k, n.kind = .file k

/-- `J` says that nothing is in the way of publishing `d`: its lock file can be
locked, and the entry is not there. -/
def Fit (c : CacheSite) (J : World → Prop) (d : Bytes) : Prop :=
  ∀ w, c.Rooted w → J w → c.LockFile d w ∧ c.answer w d = some (.ok false)

/-- The archive unpacks, and leaves room for the marker. -/
def Publishable (c : CacheSite) (x : Extern) (A : Bytes) : Prop :=
  ∃ tree, extract c.umask (emptyTree (maskPerm c.umask 0o700)) (x.untar A) = some tree ∧
    tree [cacheCompletionMarker] = none

variable {c : CacheSite} {x : Extern} {i : Nat} {R : World → World → Prop} {J : World → Prop}
variable {S S' : Set Bytes} {w w' : World} {d t tn : Bytes} {k : Nat} {A : Bytes} {m : Mode}

theorem Setting.fetched (g : c.Setting x i R J) : Stable R (c.Fetched i J S tn k A) :=
  (g.settled S).and g.tarFile

theorem Setting.fetched_step (g : c.Setting x i R J) (h : c.Fetched i J S tn k A w)
    (ht : c.Tidy i w w') (htemps : ∀ t, c.OwnTemp i w' t → t ∈ S')
    (hnode : w'.fs.node (c.child tn) = w.fs.node (c.child tn))
    (hinode : w'.fs.inode k = w.fs.inode k)
    (hrefs : ∀ q, w'.fs.RefersTo q k → w.fs.RefersTo q k) : c.Fetched i J S' tn k A w' :=
  ⟨g.settled_step h.1 ht htemps, h.2.keep hnode hinode hrefs⟩

/-! ## The lock -/

theorem lockLoc_ne_child (hd : IsDigest d) (ht : TempName t) : c.child t ≠ c.lockLoc d :=
  child_ne (ht.not_lock hd)

/-- Creating the lock file. -/
theorem Setting.fetched_lockFile (g : c.Setting x i R J) (hd : IsDigest d)
    (h : c.Fetched i J S tn k A w) {perm : Nat} (hv : w.fs.Vacant (c.lockLoc d)) :
    c.Fetched i J S tn k A (w.setFs (w.fs.addFile (c.lockLoc d) perm i hv)) := by
  refine g.fetched_step h (tidy_addFile_lock hd _ hv)
    (h.1.temps_of_nodes fun t ht => .inl ?_) ?_ ?_ ?_
  · simp [lockLoc_ne_child hd ht]
  · simp [lockLoc_ne_child hd h.2.temp]
  · simp [Nat.ne_of_lt h.2.refersTo.lt]
  · rintro q ⟨n, hn, hk⟩
    by_cases hq : q = c.lockLoc d
    · simp only [World.setFs_fs, FS.addFile_node, hq, if_true, Option.some.injEq] at hn
      subst hn
      cases hk
      exact absurd h.2.refersTo.lt (Nat.lt_irrefl _)
    · exact ⟨n, by simpa [hq] using hn, hk⟩

/-- The lock path is not a symlink. -/
def NoLink (c : CacheSite) (d : Bytes) (w : World) : Prop :=
  ∀ n, w.fs.node (c.lockLoc d) = some n → ∀ t, n.kind ≠ .symlink t

/-- A lock file is created and then left alone. -/
theorem Allowed.lockLoc_cases {j : Nat} (h : c.Allowed x j w w') (hd : IsDigest d) :
    w'.fs.node (c.lockLoc d) = w.fs.node (c.lockLoc d) ∨ ∃ k, w'.fs.RefersTo (c.lockLoc d) k := by
  have hnot : ¬ IsDigest (lockName d) := fun hl => hl.ne_lockName hd rfl
  rcases h.entry hnot with hsame | ⟨ht, _, _⟩ | ⟨d', _, _, _, hafter⟩ | ⟨hl, _, _, _⟩
  · exact .inl hsame.self
  · exact absurd rfl (ht.not_lock hd)
  · exact .inr hafter
  · exact absurd hl hnot

theorem Setting.noLink (g : c.Setting x i R J) (hd : IsDigest d) : Stable R (c.NoLink d) := by
  intro w w' hR h
  obtain ⟨j, hji, hstep⟩ := g.rely w w' hR
  rcases hstep.lockLoc_cases hd with hsame | ⟨k, n', hn', hk⟩
  · intro n hn
    exact h n (hsame ▸ hn)
  · intro n hn t ht
    rw [hn] at hn'
    cases hn'
    rw [hk] at ht
    cases ht

/-- What `publishTar` learns of the lock path before it locks. -/
theorem Setting.lstat_lock (g : c.Setting x i R J) (hd : IsDigest d) :
    Triple (exec m i) R (c.Allowed x i) (c.Fetched i J S tn k A)
      (Sys.lstat (c.site.path [lockName d])) fun r w =>
        match r with
        | .ok info => if info.type = .symlink then ¬ c.Fit J d ∧ c.Fetched i J S tn k A w
            else c.Fetched i J S tn k A w ∧ c.NoLink d w
        | .error .noent => c.Fetched i J S tn k A w ∧ c.NoLink d w
        | .error _ => m.Faulty ∧ c.Fetched i J S tn k A w := by
  refine triple_perform g.fetched ?_ fun r => ?_
  · intro w r w' hw hE
    obtain ⟨rfl, hr | ⟨hf, e, rfl⟩⟩ := exec_lstat hE
    · refine ⟨Allowed.refl c x i w', ?_⟩
      rw [lstat_child hw.1.rooted hw.1.ready hd.lock_name] at hr
      cases hn : w'.fs.node (c.child (lockName d)) with
      | none =>
          rw [hn] at hr
          subst hr
          refine ⟨hw, fun n hn' => ?_⟩
          rw [lockLoc, hn] at hn'
          cases hn'
      | some n =>
          rw [hn] at hr
          subst hr
          simp only [info_type, Node.type]
          cases hk : n.kind with
          | symlink target =>
              simp only [if_true]
              refine ⟨fun hfit => ?_, hw⟩
              obtain ⟨k', hk'⟩ := (hfit w' hw.1.rooted hw.1.inv).1 n hn
              rw [hk] at hk'
              cases hk'
          | file k' =>
              refine ⟨hw, fun n' hn' t ht => ?_⟩
              rw [lockLoc, hn] at hn'
              cases hn'
              rw [hk] at ht
              cases ht
          | dir p =>
              refine ⟨hw, fun n' hn' t ht => ?_⟩
              rw [lockLoc, hn] at hn'
              cases hn'
              rw [hk] at ht
              cases ht
    · exact ⟨Allowed.refl c x i w', .inl ⟨_, hf⟩, hw⟩
  · split
    · split
      · exact (Stable.const _).and g.fetched
      · exact g.fetched.and (g.noLink hd)
    · exact g.fetched.and (g.noLink hd)
    · exact (Stable.const _).and g.fetched

theorem Setting.fetched_setLock (g : c.Setting x i R J) (h : c.Fetched i J S tn k A w')
    (h₀ : c.Fetched i J S tn k A w) {p : Loc} {holder : Option Nat}
    (ht : c.Tidy i w (w'.setLock p holder)) : c.Fetched i J S tn k A (w'.setLock p holder) :=
  ⟨g.settled_step h₀.1 ht fun t ht => h.1.temps t (ht.of_same rfl),
    ⟨h.2.temp, h.2.node, h.2.data, h.2.unique⟩⟩

/-- The answer of `TryLockContext`. -/
def Locked (c : CacheSite) (m : Mode) (i : Nat) (J : World → Prop) (S : Set Bytes) (tn : Bytes)
    (k : Nat) (A d : Bytes) (r : Except Errno Loc) (w : World) : Prop :=
  match r with
  | .ok lock => lock = c.lockLoc d ∧ (c.Settled i J S w ∧ c.Held i d w) ∧ c.TarFile i tn k A w
  | .error _ => (m.Faulty ∨ ¬ c.Fit J d) ∧ c.Fetched i J S tn k A w

theorem Setting.tryLock_spec (g : c.Setting x i R J) (hd : IsDigest d) (perm : Nat) :
    Triple (exec m i) R (c.Allowed x i) (fun w => c.Fetched i J S tn k A w ∧ c.NoLink d w)
      (Sys.tryLock (c.site.path [lockName d]) perm) (c.Locked m i J S tn k A d) := by
  refine triple_perform (g.fetched.and (g.noLink hd)) ?_ fun r => ?_
  · intro w r w' ⟨hw, hnolink⟩ hE
    have hopen : w.fs.openTarget (c.site.path [lockName d]) = .ok (c.lockLoc d) :=
      FS.openTarget_eq (locate_child hw.1.rooted hw.1.ready hd.lock_name) hnolink
    -- a failed attempt may have created the file
    have hfailed : ∀ e, m.Faulty → (w' = w ∨
      ∃ p, w.fs.openTarget (c.site.path [lockName d]) = .ok p ∧
        ∃ h : w.fs.Vacant p, w' = w.setFs (w.fs.addFile p (w.perm perm) i h)) →
        c.Allowed x i w w' ∧ c.Locked m i J S tn k A d (.error e) w' := by
      rintro e hf (rfl | ⟨p, hp, hv, rfl⟩)
      · exact ⟨Allowed.refl c x i w', .inl hf, hw⟩
      · rw [hopen] at hp
        cases hp
        exact ⟨.inl (tidy_addFile_lock hd _ hv), .inl hf, g.fetched_lockFile hd hw hv⟩
    rcases hE with hN | ⟨hf, ⟨e, rfl⟩, hw'⟩ | ⟨hm, rfl, hw'⟩
    · simp only [Nominal, hopen] at hN
      cases hn : w.fs.node (c.lockLoc d) with
      | none =>
          rw [hn] at hN
          obtain ⟨hv, hfree, rfl, rfl⟩ := hN
          have htidy := (tidy_addFile_lock (i := i) hd (w.perm perm) hv).lock hfree
          obtain ⟨hs, htar⟩ := g.fetched_setLock (g.fetched_lockFile hd hw hv) hw htidy
          exact ⟨.inl htidy, rfl, ⟨hs, by simp [Held, World.setLock]⟩, htar⟩
      | some n =>
          rw [hn] at hN
          obtain ⟨kind, owner⟩ := n
          cases kind with
          | file ino =>
              obtain ⟨hfree, rfl, rfl⟩ := hN
              have htidy := (Tidy.refl c i w).lock hfree
              obtain ⟨hs, htar⟩ := g.fetched_setLock hw hw htidy
              exact ⟨.inl htidy, rfl, ⟨hs, by simp [Held, World.setLock]⟩, htar⟩
          | symlink target => exact absurd rfl (hnolink _ hn target)
          | dir p =>
              obtain ⟨rfl, rfl⟩ := hN
              refine ⟨Allowed.refl c x i w', .inr fun hfit => ?_, hw⟩
              obtain ⟨k', hk'⟩ := (hfit w' hw.1.rooted hw.1.inv).1 _ hn
              cases hk'
    · exact hfailed _ (.inl ⟨_, hf⟩) hw'
    · exact hfailed _ (.inr hm) hw'
  · cases r with
    | ok lock => exact (Stable.const _).and (((g.settled S).and g.held).and g.tarFile)
    | error e => exact (Stable.const _).and g.fetched

theorem unlock_spec {P : World → Prop} (hst : Stable R P) {lock : Loc}
    (hP : ∀ w, P w → c.Tidy i w (w.setLock lock none) → P (w.setLock lock none)) :
    Triple (exec m i) R (c.Allowed x i) P (Sys.unlock lock) fun _ w => P w := by
  refine triple_perform hst ?_ fun _ => hst
  intro w r w' hw hE
  rcases hE with rfl | ⟨_, hF⟩ | ⟨_, hC⟩
  · split
    · rename_i hheld
      have htidy := tidy_unlock (c := c) hheld
      exact ⟨.inl htidy, hP w hw htidy⟩
    · exact ⟨Allowed.refl c x i w, hw⟩
  · exact hF.elim
  · exact hC.elim

/-! ## A stale entry -/

/-- Under the lock, with the archive file, and the entry is not complete. -/
def Stale (c : CacheSite) (i : Nat) (J : World → Prop) (S : Set Bytes) (tn : Bytes) (k : Nat)
    (A d : Bytes) (w : World) : Prop :=
  (c.Settled i J S w ∧ c.Held i d w ∧ c.answer w d = some (.ok false)) ∧ c.TarFile i tn k A w

/-- The same, and there is nothing where the entry belongs. -/
def Cleared (c : CacheSite) (i : Nat) (J : World → Prop) (S : Set Bytes) (tn : Bytes) (k : Nat)
    (A d : Bytes) (w : World) : Prop :=
  (c.Fetched i J S tn k A w ∧ c.Held i d w) ∧ w.fs.node (c.child d) = none

theorem Setting.stale (g : c.Setting x i R J) (hd : IsDigest d) :
    Stable R (c.Stale i J S tn k A d) :=
  (g.answer_held hd _).and g.tarFile

theorem Setting.cleared (g : c.Setting x i R J) (hd : IsDigest d) :
    Stable R (c.Cleared i J S tn k A d) := by
  intro w w' hR ⟨⟨hw, hheld⟩, hnone⟩
  obtain ⟨j, hji, hstep⟩ := g.rely w w' hR
  refine ⟨⟨g.fetched w w' hR hw, g.held w w' hR hheld⟩, ?_⟩
  rw [(hstep.locked_same hji hd hheld).self]
  exact hnone

theorem Setting.clearable_stale (g : c.Setting x i R J) (hd : IsDigest d) :
    Os.Clearable c.site d R (c.Allowed x i) (c.Stale i J S tn k A d)
      (c.Cleared i J S tn k A d) where
  name := hd.name
  refl := Allowed.refl c x i
  leads w h := h.1.1.rooted.at_base h.1.1.ready
  quiet w w' h hR := by
    obtain ⟨j, hji, hstep⟩ := g.rely w w' hR
    refine ⟨fun rel => ?_, g.stale hd w w' hR h⟩
    have := hstep.locked_same hji hd h.1.2.1 rel
    rwa [child_append] at this
  done := g.cleared hd
  absent w h hnone := ⟨⟨⟨h.1.1, h.2⟩, h.1.2.1⟩, hnone⟩
  allow w rel hrm h := by
    obtain ⟨⟨hs, hheld, hstale⟩, htar⟩ := h
    have hrm' : w.fs.Removable (c.child d ++ rel) := by
      rw [child_append]
      exact hrm
    have htidy : c.Tidy i w (w.setFs (w.fs.erase (c.site.loc ++ d :: rel) hrm)) := by
      have htidy := tidy_erase_stale hd hheld hstale hrm'
      simp only [child_append] at htidy
      exact htidy
    have hother : ∀ t, TempName t → c.child t ≠ c.site.loc ++ d :: rel := by
      intro t ht heq
      have heq' : c.child t ++ [] = c.child d ++ rel := by
        rw [List.append_nil, child_append]
        exact heq
      exact ht.not_digest ((child_inj heq').1 ▸ hd)
    have hfetched : c.Fetched i J S tn k A (w.setFs (w.fs.erase (c.site.loc ++ d :: rel) hrm)) := by
      refine g.fetched_step ⟨hs, htar⟩ htidy (hs.temps_of_nodes fun t ht => .inl ?_) ?_ rfl ?_
      · simp [hother t ht]
      · simp [hother tn htar.temp]
      · exact fun q hq => refersTo_erase hrm hq
    refine ⟨.inl htidy, ?_⟩
    split
    · rename_i hrel
      subst hrel
      exact ⟨⟨hfetched, hheld⟩, by simp [child, site]⟩
    · exact ⟨⟨hfetched.1, hheld, by rw [htidy.answer hs.rooted hd]; exact hstale⟩, hfetched.2⟩

/-! ## A directory of one's own -/

/-- The call works in its temporary directory `t`. -/
def Working (c : CacheSite) (i : Nat) (J : World → Prop) (S : Set Bytes) (tn : Bytes) (k : Nat)
    (A d t : Bytes) (w : World) : Prop :=
  c.Cleared i J S tn k A d w ∧ c.OwnTemp i w t

theorem OwnTemp.name (h : c.OwnTemp i w t) : Name t :=
  w.fs.names (c.child t) h.node_ne_none t (by simp [child])

theorem Setting.working (g : c.Setting x i R J) (hd : IsDigest d) :
    Stable R (c.Working i J S tn k A d t) := by
  intro w w' hR ⟨h, ht⟩
  obtain ⟨j, hji, hstep⟩ := g.rely w w' hR
  exact ⟨g.cleared hd w w' hR h, hstep.ownTemp hji ht⟩

/-- The directory is a region of the call: the others leave it alone, and whatever
is done inside it is allowed. -/
theorem Setting.guarded (g : c.Setting x i R J) (hd : IsDigest d) :
    Guarded (c.region t) R (c.Allowed x i) (c.Working i J S tn k A d t) where
  quiet w w' h hR := by
    obtain ⟨j, hji, hstep⟩ := g.rely w w' hR
    have hsame := hstep.temp_same hji h.2
    have hw' := g.working hd w w' hR h
    refine ⟨⟨fun hat => ?_, hsame, fun rel k' hk' => hstep.temp_inode hji h.2 hk', ?_,
      hstep.framed.umask⟩, hw'⟩
    · refine (hw'.1.1.1.1.rooted.at_base hw'.1.1.1.1.ready).below (by simpa using h.2.name) ?_
      have hdir := hat.isDir
      unfold FS.isDir at hdir ⊢
      have hself := hsame.self
      rw [child] at hself
      rw [hself]
      exact hdir
    · intro hclosed rel q k' hrel hq
      have hrel' := hsame.refersTo.mp hrel
      refine hclosed rel q k' hrel' (hstep.temp_refs hji h.2 ?_ hrel' hq)
      exact fun q' k'' rel' hk'' hq' => hclosed rel' q' k'' hk'' hq'
  refl := Allowed.refl c x i
  allow w w' h hconf := by
    obtain ⟨⟨⟨hw, hheld⟩, hnone⟩, ht⟩ := h
    have htidy := tidy_confined ht hconf
    have hbelow : ∀ t', ¬ Below (c.child t) (c.child t') := by
      rintro t' ⟨rel, hrel, heq⟩
      have heq' : c.child t' ++ [] = c.child t ++ rel := by
        rw [List.append_nil]
        exact heq
      exact hrel (child_inj heq').2.symm
    have hnode : ∀ t', w'.fs.node (c.child t') = w.fs.node (c.child t') :=
      fun t' => (hconf.outside (hbelow t')).1
    refine ⟨.inl htidy, ⟨⟨⟨?_, ?_⟩, ?_⟩, ht.of_same (hnode t)⟩⟩
    · refine g.fetched_step hw htidy (hw.1.temps_of_nodes fun t' _ => .inl (hnode t')) (hnode tn)
        ?_ ?_
      · by_contra hne
        exact hbelow tn (hconf.written k hw.2.refersTo.lt hne _ hw.2.refersTo)
      · intro q hq
        cases hn : w.fs.node q with
        | none =>
            obtain ⟨q', hq', href⟩ := hconf.linked q k hn hq hw.2.refersTo.lt
            rw [hw.2.unique q' href] at hq'
            exact absurd hq' (hbelow tn)
        | some n =>
            obtain ⟨n', hn', hk'⟩ := hq
            rw [hconf.grows.node q n hn] at hn'
            cases hn'
            exact ⟨n, hn, hk'⟩
    · rw [Held, hconf.locks]
      exact hheld
    · rw [hnode d]
      exact hnone

/-- A directory just created. -/
theorem holds_emptyTree {s : Site} {perm : Nat} (hleads : w.fs.At s.rooted s.parts s.loc)
    (htop : w.fs.view s.loc [] = some (.dir perm))
    (hempty : ∀ rel, rel ≠ [] → w.fs.node (s.loc ++ rel) = none) (humask : w.umask = s.umask) :
    Holds s (emptyTree perm) w := by
  have hview : w.fs.view s.loc = emptyTree perm := by
    funext rel
    unfold emptyTree
    split
    · rename_i hrel
      rw [hrel, htop]
    · rename_i hrel
      exact FS.view_eq_none_iff.mpr (hempty rel hrel)
  rw [← hview]
  exact holds_of_empty hleads hempty humask

/-- The answer of `MkdirTemp`. -/
def DirCreated (c : CacheSite) (m : Mode) (i : Nat) (J : World → Prop) (S : Set Bytes) (tn : Bytes)
    (k : Nat) (A d : Bytes) (r : Except Errno Bytes) (w : World) : Prop :=
  match r with
  | .ok path => ∃ t, (path = c.site.path [t] ∧ t ≠ tn) ∧
      Knows (c.region t) (c.Working i J (insert t S) tn k A d t)
        (emptyTree (maskPerm c.umask 0o700)) w
  | .error _ => m.Faulty ∧ c.Cleared i J S tn k A d w

theorem Setting.mkdirTemp_spec (g : c.Setting x i R J) (hd : IsDigest d) :
    Triple (exec m i) R (c.Allowed x i) (c.Cleared i J S tn k A d)
      (Sys.mkdirTemp c.base (lit ".context-") []) (c.DirCreated m i J S tn k A d) := by
  refine triple_perform (g.cleared hd) ?_ fun r => ?_
  · intro w r w' hw hE
    obtain ⟨⟨hfetched, hheld⟩, hnone⟩ := hw
    rcases hE with ⟨n, hN⟩ | ⟨hf, ⟨e, rfl⟩, rfl⟩ | ⟨_, hC⟩
    · obtain ⟨hname, htemp⟩ := temp_name n [] (by simp)
      rw [c.tempPath_base, locate_child hfetched.1.rooted hfetched.1.ready hname] at hN
      generalize lit ".context-" ++ digits n ++ [] = t at hname htemp hN
      obtain ⟨hv, rfl, rfl⟩ := hN
      have hperm : w.perm 0o700 = maskPerm c.umask 0o700 := by
        rw [World.perm, hfetched.1.rooted.umask_eq]
      have htidy := tidy_add_temp (i := i) htemp (w.perm 0o700) hv (by simp)
      have htn : t ≠ tn := by
        rintro rfl
        have := hv.free
        rw [hfetched.2.node] at this
        cases this
      have htd : d ≠ t := by
        rintro rfl
        exact htemp.not_digest hd
      have hown := ownTemp_add (i := i) htemp (w.perm 0o700) hv (by simp)
      have hfetched' : c.Fetched i J (insert t S) tn k A _ := g.fetched_step hfetched htidy
        (hfetched.1.temps_insert fun t' ht' => by simp [child_ne ht'])
        (by simp [child_ne htn.symm]) rfl fun q hq => refersTo_add_dir hv (by simp) hq
      refine ⟨.inl htidy, t, ⟨rfl, htn⟩, ⟨⟨⟨hfetched', hheld⟩, ?_⟩, hown⟩, ?_⟩
      · simp [child_ne htd, hnone]
      · refine holds_emptyTree ?_ ?_ ?_ hfetched'.1.rooted.umask_eq
        · refine (hfetched'.1.rooted.at_base hfetched'.1.ready).below (by simpa using hname) ?_
          simp [FS.isDir, child, Node.isDir]
        · simp [region, FS.view, FS.content, hperm]
        · intro rel hrel
          have hne : c.child t ++ rel ≠ c.child t :=
            fun he => hrel (List.append_right_eq_self.mp he)
          have hfree := hv.below rel
          simp [region, hne, hfree]
    · exact ⟨Allowed.refl c x i w', .inl ⟨_, hf⟩, ⟨hfetched, hheld⟩, hnone⟩
    · exact hC.elim
  · cases r with
    | ok path =>
        refine Stable.exists fun t => ?_
        rintro w w' hR ⟨⟨hpath, htn⟩, hw⟩
        exact ⟨⟨hpath, htn⟩, (g.guarded hd).stable _ w w' hR hw⟩
    | error e => exact (Stable.const _).and (g.cleared hd)

/-! ## The new entry -/

/-- The entry is there, complete.  If it was not there before, it is what the archive
unpacks to, with the marker. -/
def Delivered (c : CacheSite) (x : Extern) (i : Nat) (J : World → Prop) (S : Set Bytes) (tn : Bytes)
    (k : Nat) (A d : Bytes) (w : World) : Prop :=
  (c.Fetched i (fun _ => True) S tn k A w ∧ c.Complete w d) ∧
    (c.Fit J d → ∃ tree,
      extract c.umask (emptyTree (maskPerm c.umask 0o700)) (x.untar A) = some tree ∧
      ∀ rel, w.fs.view (c.child d) rel = tree.insert [cacheCompletionMarker]
        (.file (maskPerm c.umask 0o600) cacheCompletionValue) rel)

theorem Setting.weaken (g : c.Setting x i R J) : c.Setting x i R fun _ => True :=
  ⟨g.rely, fun _ _ _ _ _ => trivial, fun _ _ _ _ _ => trivial⟩

theorem Settled.weaken (h : c.Settled i J S w) : c.Settled i (fun _ => True) S w :=
  ⟨⟨h.rooted, trivial, h.temps⟩, h.ready⟩

theorem Setting.delivered (g : c.Setting x i R J) (hd : IsDigest d) :
    Stable R (c.Delivered x i J S tn k A d) := by
  intro w w' hR ⟨⟨hw, hc⟩, hshown⟩
  obtain ⟨j, hji, hstep⟩ := g.rely w w' hR
  obtain ⟨hc', hview⟩ := hstep.complete hw.1.rooted hd hc
  refine ⟨⟨g.weaken.fetched w w' hR hw, hc'⟩, fun hfit => ?_⟩
  obtain ⟨tree, htree, heq⟩ := hshown hfit
  exact ⟨tree, htree, fun rel => (hview rel).trans (heq rel)⟩

/-- Moving a finished directory into place publishes it. -/
theorem publishes_move (hd : IsDigest d) (hheld : c.Held i d w) (hr : c.Rooted w)
    (hnone : w.fs.node (c.child d) = none) (ht : c.OwnTemp i w t) {T : TreeMap}
    (hT : c.Published x d T) (hview : ∀ rel, w.fs.view (c.child t) rel = T rel)
    (hmv : w.fs.Movable (c.child t) (c.child d)) :
    c.Publishes x i w (w.setFs (w.fs.move (c.child t) (c.child d) hmv)) d := by
  have hother : ∀ q, ¬ c.child d <+: q → ¬ c.child t <+: q →
      (w.fs.move (c.child t) (c.child d) hmv).node q = w.fs.node q :=
    fun q hq hq' => FS.movedNode_other hq hq'
  have htd : t ≠ d := by
    rintro rfl
    exact ht.temp.not_digest hd
  have hnotchild : ∀ q, ¬ c.Inner q → ∀ t', ¬ c.child t' <+: q := by
    rintro q hq t' ⟨rel, rfl⟩
    exact hq (c.inner_child t' rel)
  refine ⟨⟨?_, rfl, rfl, ?_, fun k _ hne => absurd rfl hne, ?_, Nat.le_refl _, fun _ => .inl rfl⟩,
    hd, hheld, ?_, ?_, ?_⟩
  · exact fun q hq => hother q (hnotchild q hq d) (hnotchild q hq t)
  · intro ns _ hns
    refine .inl (hother _ ?_ ?_)
    · rintro ⟨rel, heq⟩
      exact chain_ne_child hns d rel heq.symm
    · rintro ⟨rel, heq⟩
      exact chain_ne_child hns t rel heq.symm
  · intro q k hq _
    refine (FS.RefersTo.of_move hmv hq).imp_right ?_
    rintro ⟨rel, _, href⟩
    exact ⟨c.child t ++ rel, ⟨t, ht, List.prefix_append _ _⟩, href⟩
  · rw [answer_eq hr hd]
    simp [entryAnswer, hnone]
  · refine ⟨T, hT, fun rel => ?_⟩
    rw [← hview rel]
    exact FS.view_move hmv rel
  · intro t' htd'
    have hnotd : ∀ rel, ¬ c.child d <+: c.child t' ++ rel :=
      fun rel hpre => htd' (child_eq_of_below (List.prefix_append _ _) hpre)
    by_cases htt : t' = t
    · subst htt
      refine .temp ht.temp (.inr ht) (.inl ?_)
      have hnd := hnotd []
      rw [List.append_nil] at hnd
      simp [FS.movedNode, hnd]
    · refine .same fun rel => hother _ (hnotd rel) fun hpre => ?_
      exact htt (child_eq_of_below (List.prefix_append _ _) hpre)

/-- The tree `d` is to be published as. -/
def Finished (c : CacheSite) (x : Extern) (A : Bytes) (T : TreeMap) : Prop :=
  ∃ tree, extract c.umask (emptyTree (maskPerm c.umask 0o700)) (x.untar A) = some tree ∧
    T = tree.insert [cacheCompletionMarker] (.file (maskPerm c.umask 0o600) cacheCompletionValue)

theorem Finished.published {T : TreeMap} (h : c.Finished x A T)
    (hhash : hexEncode (x.sha256 A) = d) : c.Published x d T := by
  obtain ⟨tree, htree, rfl⟩ := h
  exact ⟨A, tree, hhash, htree, rfl⟩

theorem movable_child (hr : c.Ready w) (hd : IsDigest d) (ht : c.OwnTemp i w t)
    (hdir : w.fs.isDir (c.child t) = true) (hnone : w.fs.node (c.child d) = none) :
    w.fs.Movable (c.child t) (c.child d) where
  old_isDir := hdir
  outside hpre := by
    have htd : t = d := child_eq_of_below hpre (List.prefix_refl _)
    exact ht.temp.not_digest (htd ▸ hd)
  entry := ⟨c.loc, d, rfl, hr, hd.name⟩
  target := .inl hnone
  empty q hq := FS.node_below_eq_none (by simp [FS.isDir, hnone]) hq

/-- The rename. -/
theorem Setting.rename_spec (g : c.Setting x i R J) (hd : IsDigest d)
    (hhash : hexEncode (x.sha256 A) = d) (htn : t ≠ tn) {T : TreeMap} (hT : c.Finished x A T) :
    Triple (exec m i) R (c.Allowed x i)
      (Knows (c.region t) (c.Working i J (insert t S) tn k A d t) T)
      (Sys.renameDir (c.site.path [t]) (c.site.path [d])) fun r w =>
        match r with
        | .ok () => c.Delivered x i J S tn k A d w
        | .error _ => m.Faulty ∧ c.Working i J (insert t S) tn k A d t w := by
  refine triple_perform ((g.guarded hd).stable T) ?_ fun r => ?_
  · intro w r w' ⟨⟨⟨⟨hw, hheld⟩, hnone⟩, ht⟩, hholds⟩ hE
    have hdir : w.fs.isDir (c.child t) = true := hholds.leads.isDir
    have hmv := movable_child hw.1.ready hd ht hdir hnone
    rcases hE with hN | ⟨hf, ⟨e, rfl⟩, rfl⟩ | ⟨_, hC⟩
    · simp only [Nominal, locate_child hw.1.rooted hw.1.ready ht.name,
        locate_child hw.1.rooted hw.1.ready hd.name] at hN
      rcases hN with ⟨hfile, _⟩ | ⟨_, hnot, _⟩ | ⟨hmv', rfl, rfl⟩
      · rw [hdir] at hfile
        cases hfile
      · exact absurd hmv hnot
      · have hpub := publishes_move hd hheld hw.1.rooted hnone ht (hT.published hhash)
          hholds.view hmv'
        have hlegit := hpub.legit
        refine ⟨.inr ⟨d, hpub⟩, ⟨⟨⟨⟨?_, trivial, ?_⟩, ?_⟩, ?_⟩, hlegit.complete⟩, fun _ => ?_⟩
        · exact hpub.framed.rooted hw.1.rooted
        · intro t' ht'
          have htd : t' ≠ d := by
            rintro rfl
            exact ht'.temp.not_digest hd
          have hnotd : ¬ c.child d <+: c.child t' :=
            fun hpre => htd (child_eq_of_below (List.prefix_refl _) hpre)
          have htt : t' ≠ t := by
            rintro rfl
            exact ht'.node_ne_none (by simp [FS.movedNode, hnotd])
          have hnott : ¬ c.child t <+: c.child t' :=
            fun hpre => htt (child_eq_of_below (List.prefix_refl _) hpre)
          have hold := hw.1.temps t' (ht'.of_same (FS.movedNode_other hnotd hnott).symm)
          exact hold.resolve_left htt
        · exact hpub.framed.ready hw.1.ready
        · have hnotd : ¬ c.child d <+: c.child tn := by
            intro hpre
            have htnd : d = tn := child_eq_of_below hpre (List.prefix_refl _)
            exact hw.2.temp.not_digest (htnd ▸ hd)
          have hnott : ¬ c.child t <+: c.child tn :=
            fun hpre => htn (child_eq_of_below hpre (List.prefix_refl _))
          refine hw.2.keep (FS.movedNode_other hnotd hnott) rfl fun q hq => ?_
          rcases FS.RefersTo.of_move hmv' hq with href | ⟨rel, _, href⟩
          · exact href
          · exact absurd ⟨rel, hw.2.unique _ href⟩ hnott
        · obtain ⟨tree, htree, hTeq⟩ := hT
          refine ⟨tree, htree, fun rel => ?_⟩
          rw [← hTeq, ← hholds.view rel]
          exact FS.view_move hmv' rel
    · exact ⟨Allowed.refl c x i w', .inl ⟨_, hf⟩, ⟨⟨hw, hheld⟩, hnone⟩, ht⟩
    · exact hC.elim
  · cases r with
    | ok _ => exact g.delivered hd
    | error e => exact (Stable.const _).and (g.working hd)

/-- Unpacking into the directory of one's own. -/
theorem Setting.unpackTar_working (g : c.Setting x i R J) (hd : IsDigest d) (ht : Name t) :
    Triple (exec m i) R (c.Allowed x i)
      (Knows (c.region t) (c.Working i J S tn k A d t) (emptyTree (maskPerm c.umask 0o700)))
      (unpackTar x.untar (c.site.path [tn]) (c.site.path [t])) fun r w =>
        match r with
        | .ok () => ∃ tree,
            extract c.umask (emptyTree (maskPerm c.umask 0o700)) (x.untar A) = some tree ∧
            Knows (c.region t) (c.Working i J S tn k A d t) tree w
        | .error _ => (m.Faulty ∨ ¬ c.Publishable x A) ∧ c.Working i J S tn k A d t w := by
  have hguarded : Guarded (c.region t) R (c.Allowed x i) (c.Working i J S tn k A d t) :=
    g.guarded hd
  have hspec := unpackTar_spec (m := m) i hguarded (c.region_clean ht)
    (emptyTree_isDir (maskPerm c.umask 0o700)) x.untar (c.site.path [tn])
    (F := fun r => r = .ok A ∨ (∃ e, r = .error e) ∧ m.Faulty)
    fun w r w' hw hE => (hw.1.1.1.2.read hw.1.1.1.1.rooted hw.1.1.1.1.ready hE).2
  rw [region_path] at hspec
  refine triple_post hspec fun r w h => ?_
  cases r with
  | ok _ =>
      rcases h with ⟨_, ⟨e, he⟩, _⟩ | ⟨y, hy, tree, htree, hw⟩
      · cases he
      · rcases hy with rfl | ⟨⟨e, rfl⟩, _⟩
        · exact ⟨tree, htree, hw⟩
        · cases htree
  | error e =>
      rcases h with ⟨hf, _, T', hw⟩ | ⟨y, hy, hreason, T', hw⟩
      · exact ⟨.inl hf, hw.1⟩
      · refine ⟨?_, hw.1⟩
        rcases hreason with hnone | hf
        · rcases hy with rfl | ⟨_, hf⟩
          · refine .inr ?_
            rintro ⟨tree, htree, _⟩
            rw [extractRead] at hnone
            exact absurd (hnone.symm.trans htree) (by simp)
          · exact .inl hf
        · exact .inl hf

/-- `publishTar` once it has its directory, up to the cleanup. -/
theorem Setting.publishTemp_spec (g : c.Setting x i R J) (hd : IsDigest d)
    (hhash : hexEncode (x.sha256 A) = d) (ht : Name t) (htn : t ≠ tn) :
    Triple (exec m i) R (c.Allowed x i)
      (Knows (c.region t) (c.Working i J (insert t S) tn k A d t)
        (emptyTree (maskPerm c.umask 0o700)))
      (publishTemp x (c.site.path [tn]) (c.site.path [d]) (c.site.path [t])) fun r w =>
        match r with
        | .ok () => c.Delivered x i J S tn k A d w
        | .error _ => (m.Faulty ∨ ¬ c.Publishable x A) ∧
            c.Working i J (insert t S) tn k A d t w := by
  have hworking : Stable R (c.Working i J (insert t S) tn k A d t) := g.working hd
  have hguarded : Guarded (c.region t) R (c.Allowed x i) (c.Working i J (insert t S) tn k A d t) :=
    g.guarded hd
  unfold publishTemp
  simp only [Prog.bind_eq, join_marker ht]
  refine triple_bind (g.unpackTar_working hd ht) fun r => ?_
  cases r with
  | error e => exact triple_ret ((Stable.const _).and hworking) fun _ h => h
  | ok _ =>
      refine triple_exists fun tree => triple_pure fun htree => ?_
      have htop : tree.isDir [] := (extract_grows htree).isDir (emptyTree_isDir _)
      -- what `WriteFile` finds at the marker's place is known from the archive
      refine triple_fact (fun w hw => marker_place htree hw.2) fun hplace => ?_
      have hwrite := Os.writeFile_spec (m := m) i hguarded [] cacheCompletionValue 0o600 (by simp)
        marker_name htop hplace
      rw [List.nil_append, region_path] at hwrite
      refine triple_bind hwrite fun r => ?_
      cases r with
      | error e =>
          refine triple_ret ((Stable.const _).and (Stable.exists fun T' => hguarded.stable T'))
            fun w h => ?_
          obtain ⟨hreason, T', hw⟩ := h
          refine ⟨hreason.imp_right ?_, hw.1⟩
          rintro ⟨perm, hmarker⟩ ⟨tree', htree', hfree⟩
          rw [htree] at htree'
          cases htree'
          rw [hmarker] at hfree
          cases hfree
      | ok _ =>
          refine triple_pure fun _ => ?_
          refine triple_bind (g.rename_spec hd hhash htn ⟨tree, htree, rfl⟩) fun r => ?_
          cases r with
          | ok _ => exact triple_ret (g.delivered hd) fun _ h => h
          | error e => exact triple_ret ((Stable.const _).and hworking) fun _ h => ⟨.inl h.1, h.2⟩

/-! ## Cleaning up -/

theorem Setting.clearable_temp (g : c.Setting x i R J) (hd : IsDigest d) (ht : Name t)
    (htn : t ≠ tn) :
    Os.Clearable c.site t R (c.Allowed x i) (c.Working i J (insert t S) tn k A d t)
      (c.Fetched i J S tn k A) where
  name := ht
  refl := Allowed.refl c x i
  leads w h := h.1.1.1.1.rooted.at_base h.1.1.1.1.ready
  quiet w w' h hR := by
    obtain ⟨j, hji, hstep⟩ := g.rely w w' hR
    refine ⟨fun rel => ?_, g.working hd w w' hR h⟩
    have := hstep.temp_same hji h.2 rel
    rwa [child_append] at this
  done := g.fetched
  absent w h hnone := absurd hnone h.2.node_ne_none
  allow w rel hrm h := by
    obtain ⟨⟨⟨hw, hheld⟩, hnone⟩, htemp⟩ := h
    have hrm' : w.fs.Removable (c.child t ++ rel) := by
      rw [child_append]
      exact hrm
    have htidy : c.Tidy i w (w.setFs (w.fs.erase (c.site.loc ++ t :: rel) hrm)) := by
      have htidy := tidy_erase_temp htemp hrm'
      simp only [child_append] at htidy
      exact htidy
    have hother : ∀ t', t' ≠ t ∨ rel ≠ [] → c.child t' ≠ c.site.loc ++ t :: rel := by
      intro t' hne heq
      have heq' : c.child t' ++ [] = c.child t ++ rel := by
        rw [List.append_nil, child_append]
        exact heq
      have hinj := child_inj heq'
      exact hne.elim (fun h => h hinj.1) fun h => h hinj.2.symm
    have hfetched : ∀ {S' : Set Bytes},
        (∀ t', c.OwnTemp i (w.setFs (w.fs.erase (c.site.loc ++ t :: rel) hrm)) t' → t' ∈ S') →
        c.Fetched i J S' tn k A (w.setFs (w.fs.erase (c.site.loc ++ t :: rel) hrm)) := by
      intro S' htemps
      refine g.fetched_step hw htidy htemps ?_ rfl fun q hq => refersTo_erase hrm hq
      simp [hother tn (.inl htn.symm)]
    refine ⟨.inl htidy, ?_⟩
    split
    · rename_i hrel
      refine hfetched fun t' ht' => ?_
      have htt : t' ≠ t := by
        rintro rfl
        exact ht'.node_ne_none (by simp [hrel, child, site])
      exact (hw.1.temps t' (ht'.of_same (by simp [hother t' (.inl htt)]))).resolve_left htt
    · rename_i hrel
      have hnode : ∀ t', (w.setFs (w.fs.erase (c.site.loc ++ t :: rel) hrm)).fs.node (c.child t') =
          w.fs.node (c.child t') := fun t' => by simp [hother t' (.inr hrel)]
      refine ⟨⟨⟨hfetched (hw.1.temps_of_nodes fun t' _ => .inl (hnode t')), hheld⟩, ?_⟩,
        htemp.of_same (hnode t)⟩
      rw [hnode d]
      exact hnone

/-! ## The whole function -/

/-- Why publishing may fail. -/
def Broken (c : CacheSite) (m : Mode) (x : Extern) (J : World → Prop) (d A : Bytes) : Prop :=
  m.Faulty ∨ ¬ c.Fit J d ∨ ¬ c.Publishable x A

/-- What `publishTar` leaves: a complete entry, or everything as it was. -/
def Ended (c : CacheSite) (m : Mode) (x : Extern) (i : Nat) (J : World → Prop) (S : Set Bytes)
    (tn : Bytes) (k : Nat) (A d : Bytes) (r : Except Err Unit) (w : World) : Prop :=
  match r with
  | .ok () => c.Delivered x i J S tn k A d w
  | .error _ => c.Broken m x J d A ∧ c.Left m i J S w ∧ c.TarFile i tn k A w

theorem Setting.stable_ended (g : c.Setting x i R J) (hd : IsDigest d) (r : Except Err Unit) :
    Stable R (c.Ended m x i J S tn k A d r) := by
  cases r with
  | ok _ => exact g.delivered hd
  | error e => exact (Stable.const _).and ((g.left m S).and g.tarFile)

theorem Fetched.ended (h : c.Fetched i J S tn k A w) (hb : c.Broken m x J d A) (e : Err) :
    c.Ended m x i J S tn k A d (.error e) w :=
  ⟨hb, h.1.left m, h.2⟩

theorem CheckFails.faulty (h : c.CheckFails m d) : m.Faulty := by
  rcases h with h | h | h
  · exact .inl ⟨_, h⟩
  · exact .inl ⟨_, h⟩
  · exact .inl ⟨_, h⟩

theorem faulty_of_stuck {s : Site} (h : Os.Stuck m s t) : m.Faulty := by
  rcases h with ⟨_, h⟩ | h
  · exact .inl ⟨_, h⟩
  · exact .inl ⟨_, h⟩

/-- The directory is removed after a failure, as far as that succeeds. -/
theorem ended_of_cleared (hb : c.Broken m x J d A) {r : Except Errno Unit} (e : Err)
    (h : Os.Cleared m c.site t (c.Working i J (insert t S) tn k A d t) (c.Fetched i J S tn k A)
      r w) : c.Ended m x i J S tn k A d (.error e) w := by
  cases r with
  | ok _ => exact Fetched.ended h hb e
  | error e' =>
      obtain ⟨hw | hw, hstuck⟩ := h
      · obtain ⟨⟨⟨hf, _⟩, _⟩, htemp⟩ := hw
        refine ⟨hb, ⟨hf.1.mono (Set.subset_univ _), fun hm => ?_⟩, hf.2⟩
        exact absurd hstuck (hm t htemp.temp)
      · exact hw.ended hb e

/-- `publishTar` while it holds the lock. -/
theorem Setting.publishLocked_spec (g : c.Setting x i R J) (hd : IsDigest d)
    (hhash : hexEncode (x.sha256 A) = d) :
    Triple (exec m i) R (c.Allowed x i)
      (fun w => (c.Settled i J S w ∧ c.Held i d w) ∧ c.TarFile i tn k A w)
      (publishLocked x (c.site.path [tn]) (c.site.path [d]) c.base)
      (c.Ended m x i J S tn k A d) := by
  have hend : ∀ r, Triple (exec m i) R (c.Allowed x i) (c.Ended m x i J S tn k A d r)
      (Prog.ret r) (c.Ended m x i J S tn k A d) :=
    fun r => triple_ret (g.stable_ended hd r) fun _ h => h
  unfold publishLocked
  simp only [Prog.bind_eq]
  refine triple_except (g.checkCache_held hd g.tarFile) (fun e => ?_) fun cached => ?_
  · refine triple_pre (hend (.error e)) fun w h => ?_
    obtain ⟨⟨⟨hs, _⟩, htar⟩, hr⟩ := h
    refine Fetched.ended ⟨hs, htar⟩ ?_ e
    rcases hr with ha | ⟨hf, _⟩
    · refine .inr (.inl fun hfit => ?_)
      rw [(hfit w hs.rooted hs.inv).2] at ha
      cases ha
    · exact .inl hf.faulty
  cases cached with
  | true =>
      refine triple_pre (hend (.ok ())) fun w h => ?_
      obtain ⟨⟨⟨hs, _⟩, htar⟩, hr⟩ := h
      have ha : c.answer w d = some (.ok true) := hr.resolve_right (by simp)
      refine ⟨⟨⟨hs.weaken, htar⟩, (answer_true_iff hs.rooted hd).mp ha⟩, fun hfit => ?_⟩
      rw [(hfit w hs.rooted hs.inv).2] at ha
      cases ha
  | false =>
      refine triple_pre (P := c.Stale i J S tn k A d) ?_ fun w h =>
        ⟨⟨h.1.1.1, h.1.1.2, h.2.resolve_right (by simp)⟩, h.1.2⟩
      refine triple_except (Os.removeAll_spec (g.clearable_stale hd)) (fun e => ?_) fun _ => ?_
      · refine triple_pre (hend (.error (.sys e))) fun w h => ?_
        obtain ⟨hw | hw, hstuck⟩ := h
        · exact Fetched.ended ⟨hw.1.1, hw.2⟩ (.inl (faulty_of_stuck hstuck)) _
        · exact hw.1.1.ended (.inl (faulty_of_stuck hstuck)) _
      refine triple_except (g.mkdirTemp_spec hd) (fun e => ?_) fun tempDir => ?_
      · refine triple_ret ((Stable.const _).and (g.cleared hd)) fun w h => ?_
        exact h.2.1.1.ended (.inl h.1) _
      refine triple_exists fun t => triple_pure fun hpath => ?_
      obtain ⟨rfl, htn⟩ := hpath
      refine triple_fact (fun w hw => hw.1.2.name) fun ht => ?_
      refine triple_except (g.publishTemp_spec hd hhash ht htn) (fun e => ?_) fun _ => ?_
      · refine triple_pure fun hreason => ?_
        refine triple_bind (Os.removeAll_spec (g.clearable_temp hd ht htn)) fun r => ?_
        exact triple_pre (hend (.error e)) fun w h => ended_of_cleared (hreason.imp_right .inr) e h
      · exact triple_ret (g.delivered hd) fun _ h => h

theorem Setting.ended_unlock (g : c.Setting x i R J) {r : Except Err Unit} {lock : Loc}
    (h : c.Ended m x i J S tn k A d r w) (ht : c.Tidy i w (w.setLock lock none)) :
    c.Ended m x i J S tn k A d r (w.setLock lock none) := by
  cases r with
  | ok _ =>
      obtain ⟨⟨hw, hc⟩, hshown⟩ := h
      exact ⟨⟨g.weaken.fetched_setLock hw hw ht, hc.isDir, hc.marker⟩, hshown⟩
  | error e =>
      obtain ⟨hb, ⟨huniv, hleft⟩, htar⟩ := h
      refine ⟨hb, ⟨(g.fetched_setLock ⟨huniv, htar⟩ ⟨huniv, htar⟩ ht).1, fun hm => ?_⟩,
        (g.fetched_setLock ⟨huniv, htar⟩ ⟨huniv, htar⟩ ht).2⟩
      exact (g.fetched_setLock ⟨hleft hm, htar⟩ ⟨hleft hm, htar⟩ ht).1

theorem Setting.publishTar_spec (g : c.Setting x i R J) (hd : IsDigest d)
    (hhash : hexEncode (x.sha256 A) = d) :
    Triple (exec m i) R (c.Allowed x i) (c.Fetched i J S tn k A)
      (publishTar x (c.site.path [tn]) (c.site.path [d]) c.base) (c.Ended m x i J S tn k A d) := by
  have hlocked : Triple (exec m i) R (c.Allowed x i)
      (fun w => c.Fetched i J S tn k A w ∧ c.NoLink d w)
      (publishUnderLock x (c.site.path [tn]) (c.site.path [d]) c.base (c.site.path [lockName d]))
      (c.Ended m x i J S tn k A d) := by
    unfold publishUnderLock
    refine triple_bind (g.tryLock_spec hd 0o600) fun r => ?_
    cases r with
    | error e =>
        refine triple_ret ((Stable.const _).and g.fetched) fun w h => ?_
        exact h.2.ended (h.1.imp_right .inl) _
    | ok lock =>
        refine triple_pure fun hlock => ?_
        subst hlock
        refine triple_bind (g.publishLocked_spec hd hhash) fun r => ?_
        exact triple_bind (unlock_spec (g.stable_ended hd r) fun w h ht => g.ended_unlock h ht)
          fun _ => triple_ret (g.stable_ended hd r) fun _ h => h
  unfold publishTar
  simp only [Prog.bind_eq, lock_path]
  refine triple_bind (g.lstat_lock hd) fun r => ?_
  cases r with
  | ok info =>
      by_cases hlink : info.type = .symlink
      · simp only [hlink, if_true]
        refine triple_ret ((Stable.const _).and g.fetched) fun w h => ?_
        exact h.2.ended (.inr (.inl h.1)) _
      · simp only [hlink, if_false]
        exact hlocked
  | error e =>
      cases e with
      | noent => exact hlocked
      | _ =>
          refine triple_ret ((Stable.const _).and g.fetched) fun w h => ?_
          exact h.2.ended (.inl h.1) _

end CacheSite

end BuilderShim.Fileutils
