/-
  Posix/RegionOps.lean --- the file-system operations of a program that works in
  one region, among others that leave the region alone.

  Each operation has one rule.  Its answer says what it did: an answer of success
  comes with the new contents, an error with its reason in the contents, unless
  the machine is a faulty one.
-/
import BuilderShim.Posix.Region

set_option autoImplicit false

namespace BuilderShim.Posix

open BuilderShim.Filepath
open BuilderShim.Foundation

/-- A region that is safe to work in: under `Own`, which says whose it is, the
others leave it alone and confined steps are allowed. -/
structure Guarded (s : Site) (R G : World → World → Prop) (Own : World → Prop) : Prop where
  quiet : ∀ w w', Own w → R w w' → Quiet s w w' ∧ Own w'
  refl : ∀ w, G w w
  allow : ∀ w w', Own w → Confined s.loc w w' → G w w' ∧ Own w'

/-- The region is ours and its contents are `T`. -/
def Knows (s : Site) (Own : World → Prop) (T : TreeMap) (w : World) : Prop := Own w ∧ Holds s T w

/-- A call that changes nothing. -/
theorem triple_reads {m : Mode} {tid : Nat} {R G : World → World → Prop} (op : FsOp)
    (hrefl : ∀ w, G w w) {P : World → Prop} (hst : Stable R P) {F : FsOp.Res op → Prop}
    (hop : ∀ w r w', P w → exec m tid op w r w' → w' = w ∧ F r) :
    Triple (exec m tid) R G P (Prog.perform (S := FsSig) op) fun r w => F r ∧ P w := by
  refine triple_perform hst ?_ fun r => (Stable.const (F r)).and hst
  intro w r w' hw hE
  obtain ⟨rfl, hr⟩ := hop w r w' hw hE
  exact ⟨hrefl w', hr, hw⟩

section

variable {s : Site} {R G : World → World → Prop} {Own : World → Prop} {m : Mode} {tid : Nat}
variable {T : TreeMap}

theorem Guarded.stable (g : Guarded s R G Own) (T : TreeMap) : Stable R (Knows s Own T) := by
  intro w w' hR ⟨hown, hw⟩
  obtain ⟨hq, hown'⟩ := g.quiet w w' hown hR
  exact ⟨hown', hw.quiet hq⟩

theorem Guarded.stable_writing (g : Guarded s R G Own) (T : TreeMap) (p : Loc) (fd : Fd) :
    Stable R fun w => Own w ∧ Writing s T p fd w := by
  intro w w' hR ⟨hown, hw⟩
  obtain ⟨hq, hown'⟩ := g.quiet w w' hown hR
  exact ⟨hown', hw.quiet hq⟩

variable {names : Loc} {c : Bytes}

/-- What `lstat` says of a name in the region. -/
theorem Holds.lstat_eq {w : World} (h : Holds s T w) (hnames : ∀ x ∈ names, Name x) (hc : Name c)
    (hdir : T.isDir names) :
    w.fs.lstat (s.path (names ++ [c])) =
      match T (names ++ [c]) with
      | none => .error .noent
      | some ct => .ok ct.info := by
  unfold FS.lstat
  rw [h.locate hnames hc hdir, ← h.view (names ++ [c]), FS.view]
  cases hn : w.fs.node (s.loc ++ (names ++ [c])) <;> simp [hn]

theorem Guarded.lstat (g : Guarded s R G Own) (hnames : ∀ x ∈ names, Name x) (hc : Name c)
    (hdir : T.isDir names) :
    Triple (exec m tid) R G (Knows s Own T) (Sys.lstat (s.path (names ++ [c]))) fun r w =>
      (match r with
        | .ok info => ∃ ct, T (names ++ [c]) = some ct ∧ info = ct.info
        | .error e => (e = .noent ∧ T (names ++ [c]) = none) ∨ (e ≠ .noent ∧ m.Faulty)) ∧
      Knows s Own T w := by
  refine triple_reads _ g.refl (g.stable T) fun w r w' hw hE => ?_
  obtain ⟨hw', hr | ⟨hf, k, hr⟩⟩ := exec_lstat hE
  · refine ⟨hw', ?_⟩
    rw [hr, hw.2.lstat_eq hnames hc hdir]
    cases hT : T (names ++ [c]) with
    | none => exact .inl ⟨rfl, rfl⟩
    | some ct => exact ⟨ct, rfl, rfl⟩
  · refine ⟨hw', ?_⟩
    rw [hr]
    exact .inr ⟨by simp, .inl ⟨_, hf⟩⟩

/-- A creating call: it succeeds with the new entry, or the machine failed it. -/
def Created (m : Mode) (s : Site) (Own : World → Prop) (T T' : TreeMap) (r : Except Errno Unit)
    (w : World) : Prop :=
  match r with
  | .ok () => Knows s Own T' w
  | .error _ => m.Faulty ∧ Knows s Own T w

theorem Guarded.stable_created (g : Guarded s R G Own) (T T' : TreeMap) (r : Except Errno Unit) :
    Stable R (Created m s Own T T' r) := by
  cases r with
  | ok _ => exact g.stable T'
  | error _ => exact (Stable.const _).and (g.stable T)

/-- The step of a creating call, from what the call does at a vacant location. -/
theorem Guarded.created (g : Guarded s R G Own) (hnames : ∀ x ∈ names, Name x) (hc : Name c)
    (hdir : T.isDir names) (hfree : T (names ++ [c]) = none) {ct : Content} {w w' : World}
    {r : Except Errno Unit} (hw : Knows s Own T w)
    {made : (p : Loc) → w.fs.Vacant p → Except Errno Unit → World → Prop}
    (h : Creates w (w.fs.locate (s.path (names ++ [c]))) r w' made)
    (hmade : ∀ p hv, p = s.loc ++ (names ++ [c]) → made p hv r w' →
      ∃ n hi, Nameable s.loc w n ∧ w.fs.content n = ct ∧ r = .ok () ∧
        w' = w.setFs (w.fs.add p n hv hi)) :
    G w w' ∧ Created m s Own T (T.insert (names ++ [c]) ct) r w' := by
  rw [hw.2.locate hnames hc hdir] at h
  rcases creates_cases h with ⟨e, he, _⟩ | ⟨p, hp, hn, _⟩ | ⟨p, hv, hp, hm⟩
  · cases he
  · cases hp
    exact absurd (hw.2.node_none_iff.mpr hfree) hn
  · cases hp
    obtain ⟨n, hi, hname, hct, rfl, rfl⟩ := hmade _ hv rfl hm
    obtain ⟨hG, hown⟩ := g.allow w _ hw.1 (hw.2.confined_add hdir hname hv hi)
    exact ⟨hG, hown, hct ▸ hw.2.add hdir hname⟩

variable {perm : Nat}

theorem Guarded.mkdir (g : Guarded s R G Own) (hnames : ∀ x ∈ names, Name x) (hc : Name c)
    (hdir : T.isDir names) (hfree : T (names ++ [c]) = none) :
    Triple (exec m tid) R G (Knows s Own T) (Sys.mkdir (s.path (names ++ [c])) perm)
      (Created m s Own T (T.insert (names ++ [c]) (.dir (s.perm perm)))) := by
  refine triple_perform (g.stable T) ?_ (g.stable_created T _)
  intro w r w' hw hE
  rcases exec_mkdir hE with ⟨hf, ⟨k, rfl⟩, rfl⟩ | h
  · exact ⟨g.refl _, .inl ⟨_, hf⟩, hw⟩
  · simp only [Nominal] at h
    refine g.created hnames hc hdir hfree hw h fun p hv _ hm => ?_
    refine ⟨_, _, ?_, ?_, hm.1, hm.2⟩
    · intro i hi
      cases hi
    · simp [FS.content, World.perm, Site.perm, hw.2.umask_eq]

theorem Guarded.symlink (g : Guarded s R G Own) {target : Bytes} (hnames : ∀ x ∈ names, Name x)
    (hc : Name c) (hdir : T.isDir names) (hfree : T (names ++ [c]) = none) (htarget : target ≠ []) :
    Triple (exec m tid) R G (Knows s Own T) (Sys.symlink target (s.path (names ++ [c])))
      (Created m s Own T (T.insert (names ++ [c]) (.symlink target))) := by
  refine triple_perform (g.stable T) ?_ (g.stable_created T _)
  intro w r w' hw hE
  rcases exec_symlink hE with ⟨hf, ⟨k, rfl⟩, rfl⟩ | h
  · exact ⟨g.refl _, .inl ⟨_, hf⟩, hw⟩
  · simp only [Nominal, if_neg htarget] at h
    refine g.created hnames hc hdir hfree hw h fun p hv _ hm => ?_
    refine ⟨_, _, ?_, ?_, hm.1, hm.2⟩
    · intro i hi
      cases hi
    · rfl

/-- A second name for a regular file of the region. -/
theorem Guarded.link (g : Guarded s R G Own) {names' : Loc} {c' : Bytes}
    (hnames : ∀ x ∈ names, Name x) (hc : Name c) (hdir : T.isDir names)
    (hfree : T (names ++ [c]) = none) (hnames' : ∀ x ∈ names', Name x) (hc' : Name c')
    (hdir' : T.isDir names') {data : Bytes} (hold : T (names' ++ [c']) = some (.file perm data)) :
    Triple (exec m tid) R G (Knows s Own T)
      (Sys.link (s.path (names' ++ [c'])) (s.path (names ++ [c])))
      (Created m s Own T (T.insert (names ++ [c]) (.file perm data))) := by
  refine triple_perform (g.stable T) ?_ (g.stable_created T _)
  intro w r w' hw hE
  rcases exec_link hE with ⟨hf, ⟨k, rfl⟩, rfl⟩ | h
  · exact ⟨g.refl _, .inl ⟨_, hf⟩, hw⟩
  · have hview := hw.2.view (names' ++ [c'])
    rw [hold] at hview
    obtain ⟨n, hn, hct⟩ := Option.map_eq_some_iff.mp hview
    have hfile : n.isDir = false := by
      rw [← FS.content_isDir w.fs n, hct]
      rfl
    simp only [Nominal, hw.2.locate hnames' hc' hdir'] at h
    split at h
    · rename_i hnone
      rw [hn] at hnone
      cases hnone
    · rename_i n' hn'
      have hnn : n' = n := by
        rw [hn] at hn'
        exact (Option.some.inj hn').symm
      subst hnn
      simp only [hfile, Bool.false_eq_true, if_false] at h
      refine g.created hnames hc hdir hfree hw h fun p hv _ hm => ?_
      refine ⟨_, _, ?_, ?_, hm.1, hm.2⟩
      · intro i hi
        exact ⟨_, ⟨names' ++ [c'], by simp, rfl⟩, n', hn, hi⟩
      · rw [← hct]
        rfl

/-- The answer of opening a new file. -/
def Opened (m : Mode) (s : Site) (Own : World → Prop) (T : TreeMap) (p : Loc) (perm : Nat)
    (r : Except Errno Fd) (w : World) : Prop :=
  match r with
  | .ok fd => Own w ∧ Writing s (T.insert p (.file perm [])) p fd w
  | .error _ => m.Faulty ∧ Knows s Own T w

theorem Guarded.openExcl (g : Guarded s R G Own) (hnames : ∀ x ∈ names, Name x) (hc : Name c)
    (hdir : T.isDir names) (hfree : T (names ++ [c]) = none) :
    Triple (exec m tid) R G (Knows s Own T) (Sys.openExcl (s.path (names ++ [c])) perm)
      (Opened m s Own T (names ++ [c]) (s.perm perm)) := by
  refine triple_perform (g.stable T) ?_ ?_
  · intro w r w' hw hE
    rcases exec_openExcl hE with ⟨hf, ⟨k, rfl⟩, rfl⟩ | h
    · exact ⟨g.refl _, .inl ⟨_, hf⟩, hw⟩
    · simp only [Nominal, hw.2.locate hnames hc hdir] at h
      rcases creates_cases h with ⟨e, he, _⟩ | ⟨p, hp, hn, _⟩ | ⟨p, hv, hp, hm⟩
      · cases he
      · cases hp
        exact absurd (hw.2.node_none_iff.mpr hfree) hn
      · cases hp
        obtain ⟨rfl, rfl⟩ := hm
        obtain ⟨hG, hown⟩ := g.allow w _ hw.1 (hw.2.confined_addFile hdir hv)
        have hperm : w.perm perm = s.perm perm := by
          simp [World.perm, Site.perm, hw.2.umask_eq]
        refine ⟨hG, hown, ?_⟩
        rw [← hperm]
        exact hw.2.addFile hdir
  · intro r
    cases r with
    | ok fd => exact g.stable_writing _ _ _
    | error e => exact (Stable.const _).and (g.stable T)

/-- Opening a file to write it anew, where there is none yet; a directory in its
place is an error. -/
theorem Guarded.openTrunc (g : Guarded s R G Own) (hnames : ∀ x ∈ names, Name x) (hc : Name c)
    (hdir : T.isDir names) (hplace : T (names ++ [c]) = none ∨ T.isDir (names ++ [c])) :
    Triple (exec m tid) R G (Knows s Own T) (Sys.openTrunc (s.path (names ++ [c])) perm) fun r w =>
      match r with
      | .ok fd => T (names ++ [c]) = none ∧ Own w ∧
          Writing s (T.insert (names ++ [c]) (.file (s.perm perm) [])) (names ++ [c]) fd w
      | .error _ => (m.Faulty ∨ T.isDir (names ++ [c])) ∧ Knows s Own T w := by
  refine triple_perform (g.stable T) ?_ ?_
  · intro w r w' hw hE
    rcases hE with hN | ⟨hf, ⟨k, rfl⟩, rfl⟩ | ⟨_, hC⟩
    · have hnolink : ∀ n, w.fs.node (s.loc ++ (names ++ [c])) = some n →
          ∀ t, n.kind ≠ .symlink t := by
        intro n hn t hk
        rcases hplace with hfree | hd
        · rw [hw.2.node_none_iff.mpr hfree] at hn
          cases hn
        · obtain ⟨n', hn', hisdir⟩ := FS.isDir_iff.mp (hw.2.isDir_iff.mpr hd)
          rw [hn] at hn'
          cases hn'
          simp [Node.isDir, hk] at hisdir
      simp only [Nominal, FS.openTarget_eq (hw.2.locate hnames hc hdir) hnolink] at hN
      rcases hplace with hfree | hd
      · rw [hw.2.node_none_iff.mpr hfree] at hN
        obtain ⟨hv, rfl, rfl⟩ := hN
        obtain ⟨hG, hown⟩ := g.allow w _ hw.1 (hw.2.confined_addFile hdir hv)
        have hperm : w.perm perm = s.perm perm := by
          simp [World.perm, Site.perm, hw.2.umask_eq]
        refine ⟨hG, hfree, hown, ?_⟩
        rw [← hperm]
        exact hw.2.addFile hdir
      · obtain ⟨n, hn, hisdir⟩ := FS.isDir_iff.mp (hw.2.isDir_iff.mpr hd)
        obtain ⟨kind, owner⟩ := n
        cases kind with
        | file ino => cases hisdir
        | symlink target => cases hisdir
        | dir p =>
            rw [hn] at hN
            obtain ⟨rfl, rfl⟩ := hN
            exact ⟨g.refl _, .inr hd, hw⟩
    · exact ⟨g.refl _, .inl (.inl ⟨_, hf⟩), hw⟩
    · exact hC.elim
  · intro r
    cases r with
    | ok fd => exact (Stable.const _).and (g.stable_writing _ _ _)
    | error e => exact (Stable.const _).and (g.stable T)

/-- Appending to the file being written. -/
theorem Guarded.write (g : Guarded s R G Own) {p : Loc} {fd : Fd} {old data : Bytes}
    (hp : T p = some (.file perm old)) :
    Triple (exec m tid) R G (fun w => Own w ∧ Writing s T p fd w) (Sys.write fd data) fun r w =>
      match r with
      | .ok () => Own w ∧ Writing s (T.insert p (.file perm (old ++ data))) p fd w
      | .error _ => m.Faulty ∧ ∃ T', Knows s Own T' w := by
  refine triple_perform (g.stable_writing _ _ _) ?_ ?_
  · intro w r w' ⟨hown, hw⟩ hE
    obtain ⟨part, rfl, hr⟩ := exec_write hE
    obtain ⟨hG, hown'⟩ := g.allow w _ hown (hw.confined_setData _)
    refine ⟨hG, ?_⟩
    rcases hr with ⟨rfl, rfl⟩ | ⟨hf, k, rfl⟩
    · exact ⟨hown', hw.setData hp part⟩
    · exact ⟨.inl ⟨_, hf⟩, _, hown', (hw.setData hp part).toHolds⟩
  · intro r
    cases r with
    | ok _ => exact g.stable_writing _ _ _
    | error e => exact (Stable.const _).and (Stable.exists fun T' => g.stable T')

variable {P : World → Prop}

theorem Guarded.close (g : Guarded s R G Own) (hst : Stable R P) (fd : Fd) :
    Triple (exec m tid) R G P (Sys.close fd) fun r w => (r = .ok () ∨ m.Faulty) ∧ P w := by
  refine triple_reads _ g.refl hst fun w r w' _ hE => ?_
  obtain ⟨hw, hr | ⟨hf, _⟩⟩ := exec_close hE
  · exact ⟨hw, .inl hr⟩
  · exact ⟨hw, .inr (.inl ⟨_, hf⟩)⟩

theorem Guarded.ctxErr (g : Guarded s R G Own) (hst : Stable R P) :
    Triple (exec m tid) R G P Sys.ctxErr fun r w => (r = none ∨ m.Faulty) ∧ P w := by
  refine triple_reads _ g.refl hst fun w r w' _ hE => ?_
  obtain ⟨hw, hr | ⟨hf, _⟩⟩ := exec_ctxErr hE
  · exact ⟨hw, .inl hr⟩
  · exact ⟨hw, .inr (.inr hf)⟩

theorem Guarded.readNext (g : Guarded s R G Own) (hst : Stable R P) :
    Triple (exec m tid) R G P Sys.readNext fun r w => (r = .ok () ∨ m.Faulty) ∧ P w := by
  refine triple_reads _ g.refl hst fun w r w' _ hE => ?_
  obtain ⟨hw, hr | ⟨hf, _⟩⟩ := exec_readNext hE
  · exact ⟨hw, .inl hr⟩
  · exact ⟨hw, .inr (.inl ⟨_, hf⟩)⟩

end

end BuilderShim.Posix
