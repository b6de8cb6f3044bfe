/-
  Fileutils/CacheCheck.lean --- the completion check among other calls.

  The check makes three separate looks.  Under the lock, and on a complete entry,
  nothing moves between them and it answers as if it were one look.  Without the
  lock the entry may be removed or published on the way; a positive answer is
  right all the same.
-/
import BuilderShim.Fileutils.CacheOps

set_option autoImplicit false

namespace BuilderShim.Fileutils

open BuilderShim.Filepath
open BuilderShim.Foundation
open BuilderShim.Posix

namespace CacheSite

variable {c : CacheSite} {x : Extern} {i : Nat} {R : World → World → Prop} {J : World → Prop}
variable {S S' : Set Bytes} {w w' w₀ : World} {d t : Bytes} {m : Mode}

/-! ## Published entries are complete -/

theorem Published.top {T : TreeMap} (h : c.Published x d T) : T.isDir [] := by
  obtain ⟨archive, tree, _, htree, rfl⟩ := h
  obtain ⟨perm, hperm⟩ := (extract_grows htree).isDir (emptyTree_isDir _)
  refine ⟨perm, ?_⟩
  rw [TreeMap.insert_other (by simp)]
  exact hperm

theorem Published.marker {T : TreeMap} (h : c.Published x d T) :
    T [cacheCompletionMarker] = some (.file (maskPerm c.umask 0o600) cacheCompletionValue) := by
  obtain ⟨archive, tree, _, _, rfl⟩ := h
  exact TreeMap.insert_self _ _ _

theorem content_file {fs : FS} {n : Node} {perm : Nat} {data : Bytes}
    (h : fs.content n = .file perm data) : ∃ k, n.kind = .file k ∧ (fs.inode k).data = data := by
  unfold FS.content at h
  cases hk : n.kind with
  | dir p => simp [hk] at h
  | symlink target => simp [hk] at h
  | file k =>
      simp only [hk, Content.file.injEq] at h
      exact ⟨k, rfl, h.2⟩

theorem Legit.complete (h : c.Legit x w d) : c.Complete w d := by
  obtain ⟨T, hT, hview⟩ := h
  have htop : w.fs.isDir (c.child d ++ []) = true := by
    rw [FS.isDir_iff_view]
    obtain ⟨perm, hperm⟩ := hT.top
    exact ⟨perm, (hview []).trans hperm⟩
  refine ⟨by simpa using htop, ?_⟩
  have hmarker := (hview [cacheCompletionMarker]).trans hT.marker
  obtain ⟨n, hn, hct⟩ := Option.map_eq_some_iff.mp hmarker
  obtain ⟨k, hk, hdata⟩ := content_file hct
  exact ⟨k, ⟨n, hn, hk⟩, hdata⟩

/-! ## An entry that does not change -/

/-- The entry `d` is as it was in `w₀`. -/
structure EntrySame (c : CacheSite) (d : Bytes) (w₀ w : World) : Prop where
  node : c.Same w₀ w d
  inode : ∀ rel k, w₀.fs.RefersTo (c.child d ++ rel) k → w.fs.inode k = w₀.fs.inode k

theorem EntrySame.refl (c : CacheSite) (d : Bytes) (w : World) : c.EntrySame d w w :=
  ⟨fun _ => rfl, fun _ _ _ => rfl⟩

theorem EntrySame.step (h : c.EntrySame d w₀ w) (hd : IsDigest d) {j : Nat}
    (hf : c.Framed j w w') (hs : c.Same w w' d) : c.EntrySame d w₀ w' where
  node rel := (hs rel).trans (h.node rel)
  inode rel k hk := (hf.inode_entry hd (h.node.refersTo.mpr hk)).trans (h.inode rel k hk)

theorem EntrySame.entryAnswer (h : c.EntrySame d w₀ w) : c.entryAnswer w d = c.entryAnswer w₀ d :=
  h.node.entryAnswer h.inode

/-- A look of the check may fail. -/
def CheckFails (c : CacheSite) (m : Mode) (d : Bytes) : Prop :=
  m.fails (.lstat (c.site.path [d])) ∨
    m.fails (.lstat (c.site.path [d, cacheCompletionMarker])) ∨
    m.fails (.readFile (c.site.path [d, cacheCompletionMarker]))

/-- The answer of the check: `a`, or an error that is the machine's. -/
def Answers (c : CacheSite) (m : Mode) (d : Bytes) (a r : Except Err Bool) : Prop :=
  r = a ∨ c.CheckFails m d ∧ ∃ e, r = .error e

/-- `lstat` has seen this node, or its absence. -/
def Sees (node : Option Node) (r : Except Errno FileInfo) : Prop :=
  match node with
  | none => r = .error .noent
  | some n => ∃ info, r = .ok info ∧ info.type = n.type

theorem sees_child (h : c.Rooted w) (hr : c.Ready w) (hd : IsDigest d) :
    Sees (w.fs.node (c.child d)) (w.fs.lstat (c.site.path [d])) := by
  rw [lstat_child h hr hd.name]
  cases w.fs.node (c.child d) with
  | none => rfl
  | some n => exact ⟨_, rfl, info_type w.fs n⟩

theorem sees_marker (h : c.Rooted w) (hr : c.Ready w) (hd : IsDigest d)
    (hdir : w.fs.isDir (c.child d) = true) :
    Sees (w.fs.node (c.child d ++ [cacheCompletionMarker]))
      (w.fs.lstat (c.site.path [d, cacheCompletionMarker])) := by
  rw [lstat_in h hr hd.name hdir marker_name]
  cases w.fs.node (c.child d ++ [cacheCompletionMarker]) with
  | none => rfl
  | some n => exact ⟨_, rfl, info_type w.fs n⟩

section Same

variable {G : World → World → Prop} {P : World → Prop}

theorem checkCache_marker (hrefl : ∀ w, G w w) (hst : Stable R P) (hd : IsDigest d)
    (hP : ∀ w, P w → c.Rooted w ∧ c.Ready w ∧ c.EntrySame d w₀ w) {k : Nat}
    (hk : w₀.fs.RefersTo (c.child d ++ [cacheCompletionMarker]) k) :
    Triple (exec m i) R G P
      ((Sys.readFile (c.site.path [d, cacheCompletionMarker])).bind fun y => match y with
        | .error e => Prog.ret (.error (.sys e))
        | .ok marker => Prog.ret (.ok (decide (marker = cacheCompletionValue)))) fun r w =>
      c.Answers m d (.ok (decide ((w₀.fs.inode k).data = cacheCompletionValue))) r ∧ P w := by
  refine triple_bind (triple_reads (.readFile (c.site.path [d, cacheCompletionMarker]))
    hrefl hst (F := fun (r : Except Errno Bytes) => r = .ok (w₀.fs.inode k).data ∨
      m.fails (.readFile (c.site.path [d, cacheCompletionMarker])) ∧ ∃ k, r = .error (.other k)) ?_)
    fun r => triple_pure fun hr => ?_
  · intro w r w' hw hE
    obtain ⟨hw', hr | hf⟩ := exec_readFile hE
    · refine ⟨hw', .inl ?_⟩
      obtain ⟨hroot, hready, hsame⟩ := hP w hw
      have hk' := hsame.node.refersTo.mpr hk
      have hdir : w.fs.isDir (c.child d) = true := by
        obtain ⟨n, hn, _⟩ := hk'
        exact FS.isDir_of_below (q := [cacheCompletionMarker]) (by simp [hn]) (by simp)
      rw [hr, fileAt_in hroot hready hd.name hdir marker_name hk']
      simp only [Except.map, hsame.inode _ k hk]
    · exact ⟨hw', .inr hf⟩
  · rcases hr with rfl | ⟨hf, k', rfl⟩
    · exact triple_ret hst fun _ h => ⟨.inl rfl, h⟩
    · exact triple_ret hst fun _ h => ⟨.inr ⟨.inr (.inr hf), _, rfl⟩, h⟩

/-- One look of the check, at a node that does not change. -/
theorem lstat_sees (hrefl : ∀ w, G w w) (hst : Stable R P) {path : Bytes} {node : Option Node}
    (hsees : ∀ w, P w → Sees node (w.fs.lstat path)) :
    Triple (exec m i) R G P (Sys.lstat path) fun r w =>
      (Sees node r ∨ m.fails (.lstat path) ∧ ∃ k, r = .error (.other k)) ∧ P w := by
  refine triple_reads (.lstat path) hrefl hst fun w r w' hw hE => ?_
  obtain ⟨hw', rfl | hf⟩ := exec_lstat hE
  · exact ⟨hw', .inl (hsees w hw)⟩
  · exact ⟨hw', .inr hf⟩

/-- While the entry stays as it is, the check answers what is to be seen. -/
theorem checkCache_same (hrefl : ∀ w, G w w) (hst : Stable R P) (hd : IsDigest d)
    (hP : ∀ w, P w → c.Rooted w ∧ c.Ready w ∧ c.EntrySame d w₀ w) :
    Triple (exec m i) R G P (checkCache (c.site.path [d])) fun r w =>
      c.Answers m d (c.entryAnswer w₀ d) r ∧ P w := by
  unfold checkCache
  simp only [Prog.bind_eq, join_marker hd.name]
  have hchild : ∀ w, P w → Sees (w₀.fs.node (c.child d)) (w.fs.lstat (c.site.path [d])) := by
    intro w hw
    obtain ⟨hroot, hready, hsame⟩ := hP w hw
    rw [← hsame.node.self]
    exact sees_child hroot hready hd
  refine triple_bind (lstat_sees hrefl hst hchild) fun r => triple_pure fun hr => ?_
  rcases hr with hr | ⟨hf, k, rfl⟩
  case inr => exact triple_ret hst fun _ h => ⟨.inr ⟨.inl hf, _, rfl⟩, h⟩
  unfold entryAnswer
  cases hn : w₀.fs.node (c.child d) with
  | none =>
      rw [hn] at hr
      cases hr
      exact triple_ret hst fun _ h => ⟨.inl rfl, h⟩
  | some n =>
      rw [hn] at hr
      obtain ⟨info, rfl, hty⟩ := hr
      simp only [hty]
      cases hk : n.kind with
      | file k =>
          simp only [Node.type, hk, Node.isDir]
          exact triple_ret hst fun _ h => ⟨.inl rfl, h⟩
      | symlink target =>
          simp only [Node.type, hk, Node.isDir]
          exact triple_ret hst fun _ h => ⟨.inl rfl, h⟩
      | dir perm =>
          simp only [Node.type, hk, Node.isDir, ne_eq, not_true_eq_false, if_false,
            Bool.true_eq_false]
          have hdir : w₀.fs.isDir (c.child d) = true := by simp [FS.isDir, hn, Node.isDir, hk]
          have hmarker : ∀ w, P w → Sees (w₀.fs.node (c.child d ++ [cacheCompletionMarker]))
              (w.fs.lstat (c.site.path [d, cacheCompletionMarker])) := by
            intro w hw
            obtain ⟨hroot, hready, hsame⟩ := hP w hw
            have hdir' : w.fs.isDir (c.child d) = true := by
              unfold FS.isDir at hdir ⊢
              rw [hsame.node.self]
              exact hdir
            rw [← hsame.node [cacheCompletionMarker]]
            exact sees_marker hroot hready hd hdir'
          refine triple_bind (lstat_sees hrefl hst hmarker) fun r => triple_pure fun hr => ?_
          rcases hr with hr | ⟨hf, k, rfl⟩
          case inr => exact triple_ret hst fun _ h => ⟨.inr ⟨.inr (.inl hf), _, rfl⟩, h⟩
          cases hn' : w₀.fs.node (c.child d ++ [cacheCompletionMarker]) with
          | none =>
              rw [hn'] at hr
              cases hr
              exact triple_ret hst fun _ h => ⟨.inl rfl, h⟩
          | some n' =>
              rw [hn'] at hr
              obtain ⟨info', rfl, hty'⟩ := hr
              simp only [hty']
              cases hk' : n'.kind with
              | dir perm =>
                  simp only [Node.type, hk']
                  exact triple_ret hst fun _ h => ⟨.inl rfl, h⟩
              | symlink target =>
                  simp only [Node.type, hk']
                  exact triple_ret hst fun _ h => ⟨.inl rfl, h⟩
              | file k =>
                  simp only [Node.type, hk', not_true_eq_false, if_false]
                  exact checkCache_marker hrefl hst hd hP ⟨n', hn', hk'⟩

end Same

/-- The call holds the lock of the entry `d`. -/
def Held (c : CacheSite) (i : Nat) (d : Bytes) (w : World) : Prop := w.locks (c.lockLoc d) = some i

theorem Setting.held (g : c.Setting x i R J) : Stable R (c.Held i d) := by
  intro w w' hR h
  obtain ⟨j, hji, hstep⟩ := g.rely w w' hR
  exact hstep.lock_held hji h

/-- Under the lock the answer stays true. -/
theorem Setting.answer_held (g : c.Setting x i R J) (hd : IsDigest d) (a : Except Err Bool) :
    Stable R fun w => c.Settled i J S w ∧ c.Held i d w ∧ c.answer w d = some a := by
  intro w w' hR ⟨hs, hheld, ha⟩
  obtain ⟨j, hji, hstep⟩ := g.rely w w' hR
  refine ⟨g.settled S w w' hR hs, g.held w w' hR hheld, ?_⟩
  have hsame := (EntrySame.refl c d w).step hd hstep.framed (hstep.locked_same hji hd hheld)
  rw [answer_eq hs.rooted hd] at ha
  rw [answer_eq (hstep.framed.rooted hs.rooted) hd, hsame.entryAnswer]
  exact ha

theorem Setting.checkCache_held (g : c.Setting x i R J) (hd : IsDigest d) {F : World → Prop}
    (hF : Stable R F) :
    Triple (exec m i) R (c.Allowed x i) (fun w => (c.Settled i J S w ∧ c.Held i d w) ∧ F w)
      (checkCache (c.site.path [d])) fun r w =>
        ((c.Settled i J S w ∧ c.Held i d w) ∧ F w) ∧
          (c.answer w d = some r ∨ c.CheckFails m d ∧ ∃ e, r = .error e) := by
  intro w₀ h₀
  have hst : Stable R fun w => ((c.Settled i J S w ∧ c.Held i d w) ∧ F w) ∧ c.EntrySame d w₀ w := by
    intro w w' hR ⟨⟨⟨hs, hheld⟩, hf⟩, hsame⟩
    obtain ⟨j, hji, hstep⟩ := g.rely w w' hR
    refine ⟨⟨⟨g.settled S w w' hR hs, g.held w w' hR hheld⟩, hF w w' hR hf⟩, ?_⟩
    exact hsame.step hd hstep.framed (hstep.locked_same hji hd hheld)
  refine triple_post (checkCache_same (m := m) (Allowed.refl c x i) hst hd
    fun w h => ⟨h.1.1.1.rooted, h.1.1.1.ready, h.2⟩) ?_ w₀ ⟨h₀, EntrySame.refl c d w₀⟩
  intro r w ⟨hr, hw, hsame⟩
  refine ⟨hw, ?_⟩
  rcases hr with rfl | hf
  · refine .inl ?_
    rw [answer_eq hw.1.1.rooted hd, hsame.entryAnswer]
  · exact .inr hf

/-! ## A complete entry -/

theorem Setting.complete (g : c.Setting x i R J) (hd : IsDigest d) :
    Stable R fun w => c.Settled i J S w ∧ c.Complete w d := by
  intro w w' hR ⟨hs, hc⟩
  obtain ⟨j, hji, hstep⟩ := g.rely w w' hR
  exact ⟨g.settled S w w' hR hs, (hstep.complete hs.rooted hd hc).1⟩

/-- A complete entry is found, however many others are at work. -/
theorem Setting.checkCache_complete (g : c.Setting x i R J) (hd : IsDigest d) :
    Triple (exec m i) R (c.Allowed x i) (fun w => c.Settled i J S w ∧ c.Complete w d)
      (checkCache (c.site.path [d])) fun r w =>
        c.Answers m d (.ok true) r ∧ c.Settled i J S w ∧ c.Complete w d := by
  intro w₀ ⟨hs₀, hc₀⟩
  have hst : Stable R fun w => (c.Settled i J S w ∧ c.Complete w d) ∧ c.EntrySame d w₀ w := by
    intro w w' hR ⟨⟨hs, hc⟩, hsame⟩
    obtain ⟨j, hji, hstep⟩ := g.rely w w' hR
    refine ⟨g.complete hd w w' hR ⟨hs, hc⟩, ?_⟩
    exact hsame.step hd hstep.framed (hstep.complete_same hs.rooted hd hc)
  refine triple_post (checkCache_same (m := m) (Allowed.refl c x i) hst hd
    fun w h => ⟨h.1.1.rooted, h.1.1.ready, h.2⟩) ?_ w₀ ⟨⟨hs₀, hc₀⟩, EntrySame.refl c d w₀⟩
  intro r w ⟨hr, hw, _⟩
  refine ⟨?_, hw⟩
  have htrue := (answer_true_iff hs₀.rooted hd).mpr hc₀
  rw [answer_eq hs₀.rooted hd, Option.some.injEq] at htrue
  rwa [htrue] at hr

/-! ## Without the lock -/

/-- The entry is a directory if it exists at all. -/
def Plain (c : CacheSite) (d : Bytes) (w : World) : Prop :=
  ∀ n, w.fs.node (c.child d) = some n → n.isDir = true

/-- Its marker is a regular file if it exists at all. -/
def Marked (c : CacheSite) (d : Bytes) (w : World) : Prop :=
  ∀ n, w.fs.node (c.child d ++ [cacheCompletionMarker]) = some n → ∃ k, n.kind = .file k

/-- An entry loses nodes, or it is published. -/
theorem Allowed.entry_cases {j : Nat} (h : c.Allowed x j w w') (hd : IsDigest d) :
    c.Shrinks w w' d ∨ c.Complete w' d := by
  have hstep : c.EntryStep j w w' d → c.Shrinks w w' d := by
    rintro (hsame | ⟨ht, _, _⟩ | ⟨d', hd', ht, _, _⟩ | ⟨_, _, _, hshrinks⟩)
    · exact fun rel => .inl (hsame rel)
    · exact absurd hd ht.not_digest
    · exact absurd ht (hd.ne_lockName hd')
    · exact hshrinks
  rcases h with h | ⟨d', h⟩
  · exact .inl (hstep (h.entry d))
  · by_cases hdd : d = d'
    · exact .inr (hdd ▸ h.legit.complete)
    · exact .inl (hstep (h.entry d hdd))

theorem Complete.plain (h : c.Complete w d) : c.Plain d w := by
  intro n hn
  have hdir := h.isDir
  rw [FS.isDir_iff] at hdir
  obtain ⟨n', hn', hisdir⟩ := hdir
  rw [hn] at hn'
  cases hn'
  exact hisdir

theorem Complete.marked (h : c.Complete w d) : c.Marked d w := by
  intro n hn
  obtain ⟨k, ⟨n', hn', hk⟩, _⟩ := h.marker
  rw [hn] at hn'
  cases hn'
  exact ⟨k, hk⟩

theorem Setting.plain (g : c.Setting x i R J) (hd : IsDigest d) : Stable R (c.Plain d) := by
  intro w w' hR h
  obtain ⟨j, hji, hstep⟩ := g.rely w w' hR
  rcases hstep.entry_cases hd with hshrinks | hc
  · intro n hn
    have htop := hshrinks []
    rw [List.append_nil] at htop
    rcases htop with hsame | hnone
    · exact h n (hsame ▸ hn)
    · rw [hn] at hnone
      cases hnone
  · exact hc.plain

theorem Setting.marked (g : c.Setting x i R J) (hd : IsDigest d) : Stable R (c.Marked d) := by
  intro w w' hR h
  obtain ⟨j, hji, hstep⟩ := g.rely w w' hR
  rcases hstep.entry_cases hd with hshrinks | hc
  · intro n hn
    rcases hshrinks [cacheCompletionMarker] with hsame | hnone
    · exact h n (hsame ▸ hn)
    · rw [hn] at hnone
      cases hnone
  · exact hc.marked

theorem Plain.isDir_or_none (h : c.Plain d w) :
    w.fs.node (c.child d) = none ∨ w.fs.isDir (c.child d) = true := by
  cases hn : w.fs.node (c.child d) with
  | none => exact .inl rfl
  | some n => exact .inr (by simp [FS.isDir, hn, h n hn])

/-- What `lstat` says of the marker of an entry that may disappear. -/
theorem sees_marker_plain (h : c.Rooted w) (hr : c.Ready w) (hd : IsDigest d) (hp : c.Plain d w) :
    Sees (w.fs.node (c.child d ++ [cacheCompletionMarker]))
      (w.fs.lstat (c.site.path [d, cacheCompletionMarker])) := by
  rcases hp.isDir_or_none with hnone | hdir
  · have hopen : Os.Open c.site d [cacheCompletionMarker] w := by
      refine ⟨by simpa using marker_name, fun a ha hne => .inl ?_⟩
      have hnil : a = [] := by
        rcases List.prefix_cons_iff.mp ha with hnil | ⟨a', rfl, ha'⟩
        · exact hnil
        · exact absurd (by rw [List.prefix_nil.mp ha']) hne
      subst hnil
      exact hnone
    have hfree : w.fs.node (c.child d ++ [cacheCompletionMarker]) = none :=
      FS.node_below_eq_none (by simp [FS.isDir, hnone]) (by simp)
    rw [hfree]
    rcases hopen.locate (h.at_base hr) hd.name with hloc | ⟨hloc, _⟩
    · have hfree' : w.fs.node (c.site.loc ++ [d, cacheCompletionMarker]) = none := by
        simpa [child, site] using hfree
      simp [Sees, FS.lstat, hloc, hfree']
    · simp [Sees, FS.lstat, hloc]
  · exact sees_marker h hr hd hdir

/-- What is read as the marker is the marker. -/
theorem fileAt_marker_plain (h : c.Rooted w) (hr : c.Ready w) (hd : IsDigest d) (hp : c.Plain d w)
    (hm : c.Marked d w) {k : Nat}
    (hk : w.fs.fileAt (c.site.path [d, cacheCompletionMarker]) = .ok k) :
    w.fs.isDir (c.child d) = true ∧ w.fs.RefersTo (c.child d ++ [cacheCompletionMarker]) k := by
  rcases hp.isDir_or_none with hnone | hdir
  · have hres := (h.at_base hr).resolve_missing [] (c := d) (by simp) hd.name
      (by simpa [Ready] using hr) (by simpa [child] using hnone) [cacheCompletionMarker]
      (by simpa using marker_name)
    have hres' : w.fs.resolve (c.site.path [d, cacheCompletionMarker]) = .error .noent := by
      simpa [Site.path, site] using hres
    simp [FS.fileAt, hres'] at hk
  · refine ⟨hdir, ?_⟩
    cases hn : w.fs.node (c.child d ++ [cacheCompletionMarker]) with
    | none =>
        have hres := (h.at_base hr).resolve_missing [d] (c := cacheCompletionMarker)
          (by simpa using hd.name) marker_name hdir hn [] (by simp)
        have hres' : w.fs.resolve (c.site.path [d, cacheCompletionMarker]) = .error .noent := by
          simpa [Site.path, site] using hres
        simp [FS.fileAt, hres'] at hk
    | some n =>
        obtain ⟨k', hk'⟩ := hm n hn
        have hread := fileAt_in h hr hd.name hdir marker_name ⟨n, hn, hk'⟩
        rw [hread] at hk
        cases hk
        exact ⟨n, hn, hk'⟩

section Open

variable {P : World → Prop}

theorem Setting.ready (g : c.Setting x i R J) (hP : Stable R P) :
    Stable R fun w => P w ∧ c.Ready w := by
  intro w w' hR ⟨hw, hr⟩
  obtain ⟨j, _, hstep⟩ := g.rely w w' hR
  exact ⟨hP w w' hR hw, hstep.framed.ready hr⟩

theorem Setting.ready_complete (g : c.Setting x i R J) (hd : IsDigest d) (hP : Stable R P)
    (hroot : ∀ w, P w → c.Rooted w) : Stable R fun w => (P w ∧ c.Ready w) ∧ c.Complete w d := by
  intro w w' hR ⟨hw, hc⟩
  obtain ⟨j, _, hstep⟩ := g.rely w w' hR
  exact ⟨g.ready hP w w' hR hw, (hstep.complete (hroot w hw.1) hd hc).1⟩

/-- The first look: a directory that is found stays one or disappears. -/
theorem Setting.lstat_entry (g : c.Setting x i R J) (hd : IsDigest d) (hP : Stable R P)
    (hroot : ∀ w, P w → c.Rooted w) :
    Triple (exec m i) R (c.Allowed x i) P (Sys.lstat (c.site.path [d])) fun r w =>
      match r with
      | .ok info => (P w ∧ c.Ready w) ∧ (info.type = .dir → c.Plain d w)
      | .error _ => P w := by
  refine triple_perform hP ?_ fun r => ?_
  · intro w r w' hw hE
    obtain ⟨rfl, hr | ⟨_, k, rfl⟩⟩ := exec_lstat hE
    · refine ⟨Allowed.refl c x i w', ?_⟩
      subst hr
      by_cases hready : c.Ready w'
      · have hsees := sees_child (hroot w' hw) hready hd
        cases hn : w'.fs.node (c.child d) with
        | none =>
            rw [hn, Sees] at hsees
            rw [hsees]
            exact hw
        | some n =>
            rw [hn] at hsees
            obtain ⟨info, hinfo, hty⟩ := hsees
            rw [hinfo]
            refine ⟨⟨hw, hready⟩, fun hdir n' hn' => ?_⟩
            rw [hn] at hn'
            cases hn'
            rw [hty] at hdir
            cases hk : n.kind <;> simp [Node.type, Node.isDir, hk] at hdir ⊢
      · rw [lstat_unready (hroot w' hw) hready hd.name]
        exact hw
    · exact ⟨Allowed.refl c x i w', hw⟩
  · cases r with
    | error e => exact hP
    | ok info =>
        rintro w w' hR ⟨hw, hp⟩
        exact ⟨g.ready hP w w' hR hw, fun hty => g.plain hd w w' hR (hp hty)⟩

/-- The second look: so does a regular file found as its marker. -/
theorem Setting.lstat_marker (g : c.Setting x i R J) (hd : IsDigest d) (hP : Stable R P)
    (hroot : ∀ w, P w → c.Rooted w) :
    Triple (exec m i) R (c.Allowed x i) (fun w => (P w ∧ c.Ready w) ∧ c.Plain d w)
      (Sys.lstat (c.site.path [d, cacheCompletionMarker])) fun r w =>
        match r with
        | .ok info => ((P w ∧ c.Ready w) ∧ c.Plain d w) ∧ (info.type = .regular → c.Marked d w)
        | .error _ => P w := by
  have hplain := (g.ready hP).and (g.plain hd)
  refine triple_perform hplain ?_ fun r => ?_
  · rintro w r w' ⟨hw, hp⟩ hE
    obtain ⟨rfl, hr | ⟨_, k, rfl⟩⟩ := exec_lstat hE
    · refine ⟨Allowed.refl c x i w', ?_⟩
      subst hr
      have hsees := sees_marker_plain (hroot w' hw.1) hw.2 hd hp
      cases hn : w'.fs.node (c.child d ++ [cacheCompletionMarker]) with
      | none =>
          rw [hn, Sees] at hsees
          rw [hsees]
          exact hw.1
      | some n =>
          rw [hn] at hsees
          obtain ⟨info, hinfo, hty⟩ := hsees
          rw [hinfo]
          refine ⟨⟨hw, hp⟩, fun hreg n' hn' => ?_⟩
          rw [hn] at hn'
          cases hn'
          rw [hty] at hreg
          cases hk : n.kind <;> simp [Node.type, hk] at hreg ⊢
    · exact ⟨Allowed.refl c x i w', hw.1⟩
  · cases r with
    | error e => exact hP
    | ok info =>
        rintro w w' hR ⟨hw, hm⟩
        exact ⟨hplain w w' hR hw, fun hreg => g.marked hd w w' hR (hm hreg)⟩

/-- The third look: the right contents are those of a complete entry. -/
theorem Setting.read_marker (g : c.Setting x i R J) (hd : IsDigest d) (hP : Stable R P)
    (hroot : ∀ w, P w → c.Rooted w) :
    Triple (exec m i) R (c.Allowed x i)
      (fun w => ((P w ∧ c.Ready w) ∧ c.Plain d w) ∧ c.Marked d w)
      (Sys.readFile (c.site.path [d, cacheCompletionMarker])) fun r w =>
        match r with
        | .ok marker => (P w ∧ c.Ready w) ∧ (marker = cacheCompletionValue → c.Complete w d)
        | .error _ => P w := by
  refine triple_perform (((g.ready hP).and (g.plain hd)).and (g.marked hd)) ?_ fun r => ?_
  · intro w r w' ⟨⟨hw, hp⟩, hm⟩ hE
    obtain ⟨rfl, hr | ⟨_, k, rfl⟩⟩ := exec_readFile hE
    · refine ⟨Allowed.refl c x i w', ?_⟩
      subst hr
      cases hfile : w'.fs.fileAt (c.site.path [d, cacheCompletionMarker]) with
      | error e => exact hw.1
      | ok k =>
          obtain ⟨hdir, href⟩ := fileAt_marker_plain (hroot w' hw.1) hw.2 hd hp hm hfile
          exact ⟨hw, fun hvalue => ⟨hdir, k, href, hvalue⟩⟩
    · exact ⟨Allowed.refl c x i w', hw.1⟩
  · cases r with
    | error e => exact hP
    | ok marker =>
        intro w w' hR ⟨hw, hc⟩
        refine ⟨g.ready hP w w' hR hw, fun hvalue => ?_⟩
        exact (g.ready_complete hd hP hroot w w' hR ⟨hw, hc hvalue⟩).2

/-- Whatever happens between its looks, the check answers true only of a complete
entry. -/
theorem Setting.checkCache_open (g : c.Setting x i R J) (hd : IsDigest d) (hP : Stable R P)
    (hroot : ∀ w, P w → c.Rooted w) :
    Triple (exec m i) R (c.Allowed x i) P (checkCache (c.site.path [d])) fun r w =>
      match r with
      | .ok true => (P w ∧ c.Ready w) ∧ c.Complete w d
      | _ => P w := by
  unfold checkCache
  simp only [Prog.bind_eq, join_marker hd.name]
  refine triple_bind (g.lstat_entry hd hP hroot) fun r => ?_
  cases r with
  | error e =>
      simp only
      split
      · exact triple_ret hP fun _ h => h
      · exact triple_ret hP fun _ h => h
      · rename_i heq
        cases heq
  | ok info =>
      simp only
      split
      · exact triple_pre (triple_ret hP fun _ h => h) fun _ h => h.1.1
      rename_i hty
      refine triple_pre (triple_bind (g.lstat_marker hd hP hroot) fun r => ?_)
        fun w h => ⟨h.1, h.2 (by simpa using hty)⟩
      cases r with
      | error e =>
          simp only
          split
          · exact triple_ret hP fun _ h => h
          · exact triple_ret hP fun _ h => h
          · rename_i heq
            cases heq
      | ok info' =>
          simp only
          split
          · exact triple_pre (triple_ret hP fun _ h => h) fun _ h => h.1.1.1
          rename_i hreg
          refine triple_pre (triple_bind (g.read_marker hd hP hroot) fun r => ?_)
            fun w h => ⟨h.1, h.2 (by simpa using hreg)⟩
          cases r with
          | error e => exact triple_ret hP fun _ h => h
          | ok marker =>
              simp only
              by_cases hvalue : marker = cacheCompletionValue
              · rw [decide_eq_true hvalue]
                exact triple_pre (triple_ret (g.ready_complete hd hP hroot) fun _ h => h)
                  fun w h => ⟨h.1, h.2 hvalue⟩
              · rw [decide_eq_false hvalue]
                exact triple_pre (triple_ret hP fun _ h => h) fun _ h => h.1.1

end Open

end CacheSite

end BuilderShim.Fileutils
