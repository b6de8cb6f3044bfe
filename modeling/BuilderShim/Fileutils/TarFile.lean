/-
  Fileutils/TarFile.lean --- the archive file of one call: written, extended,
  verified and removed.
-/
import BuilderShim.Fileutils.CacheCheck

set_option autoImplicit false

namespace BuilderShim.Fileutils

open BuilderShim.Filepath
open BuilderShim.Foundation
open BuilderShim.Posix

namespace CacheSite

/-- The call's archive file is called `tn`, has the inode `k`, under no other name,
and holds `data`. -/
structure TarFile (c : CacheSite) (i : Nat) (tn : Bytes) (k : Nat) (data : Bytes) (w : World) :
    Prop where
  temp : TempName tn
  node : w.fs.node (c.child tn) = some ⟨.file k, i⟩
  data : (w.fs.inode k).data = data
  unique : ∀ q, w.fs.RefersTo q k → q = c.child tn

variable {c : CacheSite} {x : Extern} {i : Nat} {R : World → World → Prop} {J : World → Prop}
variable {S S' : Set Bytes} {w w' : World} {d tn : Bytes} {k : Nat} {A : Bytes} {m : Mode}

theorem TarFile.ownTemp (h : c.TarFile i tn k A w) : c.OwnTemp i w tn :=
  ⟨h.temp, _, h.node, rfl⟩

theorem TarFile.refersTo (h : c.TarFile i tn k A w) : w.fs.RefersTo (c.child tn) k :=
  ⟨_, h.node, rfl⟩

theorem TarFile.name (h : c.TarFile i tn k A w) : Name tn :=
  w.fs.names (c.child tn) (by simp [h.node]) tn (by simp [child])

theorem TarFile.underOwn (h : c.TarFile i tn k A w) {q : Loc} (hq : w.fs.RefersTo q k) :
    c.UnderOwn i w q :=
  ⟨tn, h.ownTemp, by rw [h.unique q hq]⟩

/-- A step that leaves the file alone. -/
theorem TarFile.keep (h : c.TarFile i tn k A w)
    (hnode : w'.fs.node (c.child tn) = w.fs.node (c.child tn))
    (hinode : w'.fs.inode k = w.fs.inode k)
    (hrefs : ∀ q, w'.fs.RefersTo q k → w.fs.RefersTo q k) : c.TarFile i tn k A w' where
  temp := h.temp
  node := hnode.trans h.node
  data := by rw [hinode, h.data]
  unique q hq := h.unique q (hrefs q hq)

theorem Setting.tarFile (g : c.Setting x i R J) : Stable R (c.TarFile i tn k A) := by
  intro w w' hR h
  obtain ⟨j, hji, hstep⟩ := g.rely w w' hR
  have href : w.fs.RefersTo (c.child tn ++ []) k := by
    rw [List.append_nil]
    exact h.refersTo
  refine h.keep (hstep.temp_same hji h.ownTemp).self (hstep.temp_inode hji h.ownTemp href) ?_
  intro q hq
  refine hstep.temp_refs hji h.ownTemp ?_ href hq
  intro q' k' rel hk' hq'
  -- the file has no children, so the inode is that of the file itself
  have hrel : rel = [] := by
    by_contra hne
    obtain ⟨n, hn, _⟩ := hk'
    have hbelow : w.fs.node (c.child tn ++ rel) ≠ none := by simp [hn]
    have hdir := FS.isDir_of_below hbelow hne
    simp [FS.isDir, h.node, Node.isDir] at hdir
  subst hrel
  rw [List.append_nil] at hk'
  obtain rfl := hk'.inj h.refersTo
  rw [h.unique q' hq']

/-! ## Creating and writing -/

theorem locate_child (h : c.Rooted w) (hr : c.Ready w) {t : Bytes} (ht : Name t) :
    w.fs.locate (c.site.path [t]) = .ok (c.child t) := by
  have := (h.at_base hr).locate_names [] (c := t) (by simp) ht (by simpa [Ready] using hr)
  simpa [Site.path, site, child] using this

/-- The answer of `CreateTemp`. -/
def TarCreated (c : CacheSite) (m : Mode) (i : Nat) (J : World → Prop) (S : Set Bytes)
    (r : Except Errno (Bytes × Fd)) (w : World) : Prop :=
  match r with
  | .ok (path, fd) => ∃ tn, path = c.site.path [tn] ∧ c.Settled i J (insert tn S) w ∧
      c.TarFile i tn fd [] w
  | .error _ => c.Settled i J S w ∧ m.Faulty

theorem Setting.createTar (g : c.Setting x i R J) :
    Triple (exec m i) R (c.Allowed x i) (c.Settled i J S)
      (Sys.createTemp c.base (lit ".context-") (lit ".tar")) (c.TarCreated m i J S) := by
  refine triple_perform (g.settled S) ?_ fun r => ?_
  · intro w r w' hw hE
    rcases hE with ⟨n, hN⟩ | ⟨hf, ⟨e, rfl⟩, rfl⟩ | ⟨_, hC⟩
    · obtain ⟨hname, htemp⟩ := temp_name n (lit ".tar") (by decide)
      rw [c.tempPath_base, locate_child hw.rooted hw.ready hname] at hN
      generalize lit ".context-" ++ digits n ++ lit ".tar" = tn at hname htemp hN
      obtain ⟨hv, rfl, rfl⟩ := hN
      have htidy := tidy_addFile_temp (i := i) htemp (w.perm 0o600) hv
      refine ⟨.inl htidy, tn, rfl, g.settled_step hw htidy ?_, htemp, by simp, by simp, ?_⟩
      · exact hw.temps_insert fun t ht => by simp [child_ne ht]
      · rintro q ⟨n', hn', hk'⟩
        by_contra hq
        have hold : w.fs.RefersTo q w.fs.nextIno := ⟨n', by simpa [hq] using hn', hk'⟩
        exact absurd hold.lt (Nat.lt_irrefl _)
    · exact ⟨Allowed.refl c x i w', hw, .inl ⟨_, hf⟩⟩
    · exact hC.elim
  · cases r with
    | error e => exact (g.settled S).and (Stable.const _)
    | ok out =>
        exact Stable.exists fun tn => (Stable.const _).and ((g.settled _).and g.tarFile)

theorem Setting.writeTarFile (g : c.Setting x i R J) (data : Bytes) :
    Triple (exec m i) R (c.Allowed x i) (fun w => c.Settled i J S w ∧ c.TarFile i tn k A w)
      (Sys.write k data) fun r w =>
        match r with
        | .ok () => c.Settled i J S w ∧ c.TarFile i tn k (A ++ data) w
        | .error _ => (c.Settled i J S w ∧ ∃ A', c.TarFile i tn k A' w) ∧ m.Faulty := by
  refine triple_perform ((g.settled S).and g.tarFile) ?_ fun r => ?_
  · intro w r w' ⟨hw, htar⟩ hE
    obtain ⟨part, rfl, hr⟩ := exec_write hE
    have htidy := tidy_setData (c := c) (i := i) k ((w.fs.inode k).data ++ part)
      fun q hq => htar.underOwn hq
    have hw' := g.settled_step hw htidy (hw.temps_of_nodes fun t _ => .inl rfl)
    have htar' : c.TarFile i tn k (A ++ part)
        (w.setFs (w.fs.setData k ((w.fs.inode k).data ++ part))) :=
      ⟨htar.temp, htar.node, by simp [htar.data], htar.unique⟩
    refine ⟨.inl htidy, ?_⟩
    rcases hr with ⟨rfl, rfl⟩ | ⟨hf, e, rfl⟩
    · exact ⟨hw', htar'⟩
    · exact ⟨⟨hw', _, htar'⟩, .inl ⟨_, hf⟩⟩
  · cases r with
    | ok _ => exact (g.settled S).and g.tarFile
    | error e => exact ((g.settled S).and (Stable.exists fun _ => g.tarFile)).and (Stable.const _)

/-! ## Removing -/

/-- Removing temporaries does not fail. -/
def Sweeps (c : CacheSite) (m : Mode) : Prop := ∀ t, TempName t → ¬ Os.Stuck m c.site t

/-- What a call leaves behind: the temporaries in `S` at most, if removing works. -/
def Left (c : CacheSite) (m : Mode) (i : Nat) (J : World → Prop) (S : Set Bytes) (w : World) :
    Prop :=
  c.Settled i J Set.univ w ∧ (c.Sweeps m → c.Settled i J S w)

theorem Setting.left (g : c.Setting x i R J) (m : Mode) (S : Set Bytes) :
    Stable R (c.Left m i J S) :=
  fun w w' hR h => ⟨g.settled _ w w' hR h.1, fun hm => g.settled S w w' hR (h.2 hm)⟩

theorem Settled.left (h : c.Settled i J S w) (m : Mode) : c.Left m i J S w :=
  ⟨h.mono (Set.subset_univ S), fun _ => h⟩

/-- A file in the cache directory can be taken away. -/
theorem TarFile.removable (h : c.TarFile i tn k A w) : w.fs.Removable (c.child tn) where
  ne_root := by simp [child]
  leaf b := FS.node_below_eq_none (by simp [FS.isDir, h.node, Node.isDir]) (by simp)

theorem Setting.removeTar (g : c.Setting x i R J) :
    Triple (exec m i) R (c.Allowed x i)
      (fun w => c.Settled i J (insert tn S) w ∧ c.TarFile i tn k A w)
      (Sys.remove (c.site.path [tn])) fun _ w => c.Left m i J S w := by
  refine triple_perform ((g.settled _).and g.tarFile) ?_ fun _ => g.left m S
  intro w r w' ⟨hw, htar⟩ hE
  rcases hE with hN | ⟨hf, ⟨e, rfl⟩, rfl⟩ | ⟨_, hC⟩
  · simp only [Nominal, locate_child hw.rooted hw.ready htar.name] at hN
    rcases hN with ⟨hnone, _⟩ | ⟨_, hrm, _⟩ | ⟨hrm, _, rfl, rfl⟩
    · rw [htar.node] at hnone
      cases hnone
    · exact absurd htar.removable hrm
    · have hrm' : w.fs.Removable (c.child tn ++ []) := by
        rw [List.append_nil]
        exact hrm
      have htidy := tidy_erase_temp htar.ownTemp hrm'
      simp only [List.append_nil] at htidy
      refine ⟨.inl htidy, (g.settled_step hw htidy fun t ht => ?_).left m⟩
      have htn : t ≠ tn := by
        rintro rfl
        exact ht.node_ne_none (by simp)
      have hold := hw.temps t (ht.of_same (by simp [child_ne htn]))
      exact hold.resolve_left htn
  · refine ⟨Allowed.refl c x i w', hw.mono (Set.subset_univ _), fun hm => ?_⟩
    exact absurd (.inl ⟨[], hf⟩) (hm tn htar.temp)
  · exact hC.elim

/-! ## The functions of the source -/

theorem Setting.close {P : World → Prop} (hst : Stable R P) (fd : Fd) :
    Triple (exec m i) R (c.Allowed x i) P (Sys.close fd) fun r w =>
      (r = .ok () ∨ (∃ e, r = .error e) ∧ m.Faulty) ∧ P w := by
  refine triple_reads _ (Allowed.refl c x i) hst fun w r w' _ hE => ?_
  obtain ⟨hw, hr | ⟨hf, e, hr⟩⟩ := exec_close hE
  · exact ⟨hw, .inl hr⟩
  · exact ⟨hw, .inr ⟨⟨_, hr⟩, .inl ⟨_, hf⟩⟩⟩

/-- The file of the call is there with these contents, or nothing is left. -/
def TarWritten (c : CacheSite) (m : Mode) (i : Nat) (J : World → Prop) (S : Set Bytes)
    (data : Bytes) (r : Except Err Bytes) (w : World) : Prop :=
  match r with
  | .ok path => ∃ tn k, path = c.site.path [tn] ∧ c.Settled i J (insert tn S) w ∧
      c.TarFile i tn k data w
  | .error _ => c.Left m i J S w ∧ m.Faulty

theorem Setting.writeTar_spec (g : c.Setting x i R J) (data : Bytes) :
    Triple (exec m i) R (c.Allowed x i) (c.Settled i J S) (writeTar c.base data)
      (c.TarWritten m i J S data) := by
  unfold writeTar
  simp only [Prog.bind_eq]
  refine triple_bind g.createTar fun r => ?_
  cases r with
  | error e =>
      exact triple_ret ((g.settled S).and (Stable.const _)) fun w h => ⟨h.1.left m, h.2⟩
  | ok out =>
      obtain ⟨path, fd⟩ := out
      refine triple_exists fun tn => triple_pure fun hpath => ?_
      subst hpath
      have hst : ∀ A, Stable R fun w => c.Settled i J (insert tn S) w ∧ c.TarFile i tn fd A w :=
        fun A => (g.settled _).and g.tarFile
      have hremove : ∀ A (e : Errno), m.Faulty →
          Triple (exec m i) R (c.Allowed x i)
            (fun w => c.Settled i J (insert tn S) w ∧ c.TarFile i tn fd A w)
            ((Sys.remove (c.site.path [tn])).bind fun _ => Prog.ret (.error (.sys e)))
            (c.TarWritten m i J S data) :=
        fun A e hf => triple_bind g.removeTar fun _ =>
          triple_ret (g.left m S) fun w h => ⟨h, hf⟩
      refine triple_bind (g.writeTarFile data) fun r => ?_
      cases r with
      | error e =>
          refine triple_pre ?_ fun w h => (⟨h.2, h.1.2.imp fun _ h' => ⟨h.1.1, h'⟩⟩ :
            m.Faulty ∧ ∃ A', c.Settled i J (insert tn S) w ∧ c.TarFile i tn fd A' w)
          refine triple_pure fun hf => triple_exists fun A' => ?_
          refine triple_bind (Setting.close (hst A') fd) fun _ => triple_pure fun _ => ?_
          exact hremove A' e hf
      | ok _ =>
          rw [List.nil_append]
          refine triple_bind (Setting.close (hst data) fd) fun r => triple_pure fun hr => ?_
          rcases hr with rfl | ⟨⟨e, rfl⟩, hf⟩
          · exact triple_ret (hst data) fun w h => ⟨tn, fd, rfl, h⟩
          · exact hremove data e hf

theorem TarFile.fileAt (h : c.TarFile i tn k A w) (hr : c.Rooted w) (hrd : c.Ready w) :
    w.fs.fileAt (c.site.path [tn]) = .ok k := by
  have hres := (hr.at_base hrd).resolve_names [] (c := tn) (by simp) h.name
    (by simpa [Ready] using hrd) (n := ⟨.file k, i⟩) (by simpa [child] using h.node) (by simp)
  have hres' : w.fs.resolve (c.site.path [tn]) = .ok (c.child tn) := by
    simpa [Site.path, site, child] using hres
  simp [FS.fileAt, hres', h.node]

/-- The file is opened again to be extended. -/
theorem Setting.openAppend (g : c.Setting x i R J) :
    Triple (exec m i) R (c.Allowed x i) (fun w => c.Settled i J S w ∧ c.TarFile i tn k A w)
      (Sys.openAppend (c.site.path [tn])) fun r w =>
        (r = .ok k ∨ (∃ e, r = .error e) ∧ m.Faulty) ∧ c.Settled i J S w ∧
          c.TarFile i tn k A w := by
  refine triple_reads _ (Allowed.refl c x i) ((g.settled S).and g.tarFile) ?_
  intro w r w' ⟨hw, htar⟩ hE
  rcases hE with ⟨hr, hw'⟩ | ⟨hf, ⟨e, hr⟩, hw'⟩ | ⟨_, hC⟩
  · exact ⟨hw', .inl (hr.trans (htar.fileAt hw.rooted hw.ready))⟩
  · exact ⟨hw', .inr ⟨⟨_, hr⟩, .inl ⟨_, hf⟩⟩⟩
  · exact hC.elim

/-- What is read from the file. -/
theorem TarFile.read (h : c.TarFile i tn k A w) (hr : c.Rooted w) (hrd : c.Ready w)
    {r : Except Errno Bytes} (hE : exec m i (.readFile (c.site.path [tn])) w r w') :
    w' = w ∧ (r = .ok A ∨ (∃ e, r = .error e) ∧ m.Faulty) := by
  obtain ⟨hw', hr' | ⟨hf, e, hr'⟩⟩ := exec_readFile hE
  · refine ⟨hw', .inl ?_⟩
    rw [hr', h.fileAt hr hrd, Except.map, h.data]
  · exact ⟨hw', .inr ⟨⟨_, hr'⟩, .inl ⟨_, hf⟩⟩⟩

/-- Verified: the contents have the digest.  A failure leaves the file where it is. -/
theorem Setting.verifyTarHash_spec (g : c.Setting x i R J) (d : Bytes) :
    Triple (exec m i) R (c.Allowed x i) (fun w => c.Settled i J S w ∧ c.TarFile i tn k A w)
      (verifyTarHash x (c.site.path [tn]) d) fun r w =>
        (match r with
          | .ok () => hexEncode (x.sha256 A) = d
          | .error _ => hexEncode (x.sha256 A) ≠ d ∨ m.Faulty) ∧
        c.Settled i J S w ∧ c.TarFile i tn k A w := by
  have hst : Stable R fun w => c.Settled i J S w ∧ c.TarFile i tn k A w :=
    (g.settled S).and g.tarFile
  unfold verifyTarHash
  simp only [Prog.bind_eq]
  refine triple_bind (triple_reads (.readFile (c.site.path [tn])) (Allowed.refl c x i) hst
    (F := fun (r : Except Errno Bytes) => r = .ok A ∨ (∃ e, r = .error e) ∧ m.Faulty)
    fun w r w' h hE => h.2.read h.1.rooted h.1.ready hE) fun r => triple_pure fun hr => ?_
  rcases hr with rfl | ⟨⟨e, rfl⟩, hf⟩
  · simp only
    split
    · rename_i hne
      exact triple_ret hst fun w h => ⟨.inl hne, h⟩
    · rename_i heq
      exact triple_ret hst fun w h => ⟨by simpa using heq, h⟩
  · exact triple_ret hst fun w h => ⟨.inr hf, h⟩

end CacheSite

end BuilderShim.Fileutils
