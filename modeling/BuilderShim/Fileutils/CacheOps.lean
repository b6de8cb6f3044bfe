/-
  Fileutils/CacheOps.lean --- the operations of one call on the cache.

  `Setting` is what surrounds a call: the others keep to the protocol, and
  whatever else is known (`J`) survives their steps and the call's own, the
  publishing step apart.  `Stage` is what a call knows from start to end, `S` the
  temporaries it may have left so far.
-/
import BuilderShim.GoLib.RemoveAll
import BuilderShim.Posix.RegionOps
import BuilderShim.Fileutils.CacheRely

set_option autoImplicit false

namespace BuilderShim.Fileutils

open BuilderShim.Filepath
open BuilderShim.Foundation
open BuilderShim.Posix

namespace CacheSite

/-- What surrounds the call `i`. -/
structure Setting (c : CacheSite) (x : Extern) (i : Nat) (R : World → World → Prop)
    (J : World → Prop) : Prop where
  rely : ∀ w w', R w w' → Others (c.Allowed x) i w w'
  env : ∀ w w', c.Rooted w → R w w' → J w → J w'
  own : ∀ w w', c.Rooted w → c.Tidy i w w' → J w → J w'

/-- What the call `i` knows throughout; its temporaries are among `S`. -/
structure Stage (c : CacheSite) (i : Nat) (J : World → Prop) (S : Set Bytes) (w : World) :
    Prop where
  rooted : c.Rooted w
  inv : J w
  temps : ∀ t, c.OwnTemp i w t → t ∈ S

/-- The same, once the cache directory exists. -/
structure Settled (c : CacheSite) (i : Nat) (J : World → Prop) (S : Set Bytes) (w : World) : Prop
    extends Stage c i J S w where
  ready : c.Ready w

variable {c : CacheSite} {x : Extern} {i : Nat} {R : World → World → Prop} {J : World → Prop}
variable {S S' : Set Bytes} {w w' : World} {d t : Bytes} {m : Mode}

theorem Setting.stage (g : c.Setting x i R J) (S : Set Bytes) : Stable R (c.Stage i J S) := by
  intro w w' hR h
  obtain ⟨j, hji, hstep⟩ := g.rely w w' hR
  refine ⟨hstep.framed.rooted h.rooted, g.env w w' h.rooted hR h.inv, fun t ht => ?_⟩
  exact h.temps t (hstep.ownTemp_back hji ht)

theorem Setting.settled (g : c.Setting x i R J) (S : Set Bytes) : Stable R (c.Settled i J S) := by
  intro w w' hR h
  obtain ⟨j, hji, hstep⟩ := g.rely w w' hR
  exact ⟨g.stage S w w' hR h.toStage, hstep.framed.ready h.ready⟩

theorem Allowed.refl (c : CacheSite) (x : Extern) (i : Nat) (w : World) : c.Allowed x i w w :=
  .inl (Tidy.refl c i w)

theorem Setting.stage_step (g : c.Setting x i R J) (h : c.Stage i J S w) (ht : c.Tidy i w w')
    (htemps : ∀ t, c.OwnTemp i w' t → t ∈ S') : c.Stage i J S' w' where
  rooted := ht.framed.rooted h.rooted
  inv := g.own w w' h.rooted ht h.inv
  temps := htemps

theorem Setting.settled_step (g : c.Setting x i R J) (h : c.Settled i J S w) (ht : c.Tidy i w w')
    (htemps : ∀ t, c.OwnTemp i w' t → t ∈ S') : c.Settled i J S' w' where
  toStage := g.stage_step h.toStage ht htemps
  ready := ht.framed.ready h.ready

theorem Settled.mono (h : c.Settled i J S w) (hS : S ⊆ S') : c.Settled i J S' w where
  toStage := ⟨h.rooted, h.inv, fun t ht => hS (h.temps t ht)⟩
  ready := h.ready

/-- A step that creates none of the call's temporaries. -/
theorem Stage.temps_of_nodes (h : c.Stage i J S w)
    (hnode : ∀ t, TempName t → w'.fs.node (c.child t) = w.fs.node (c.child t) ∨
      w'.fs.node (c.child t) = none) : ∀ t, c.OwnTemp i w' t → t ∈ S := by
  intro t ht
  rcases hnode t ht.temp with hsame | hnone
  · exact h.temps t (ht.of_same hsame.symm)
  · exact absurd hnone ht.node_ne_none

/-- A step that may create the temporary `t`. -/
theorem Stage.temps_insert (h : c.Stage i J S w)
    (hnode : ∀ t', t' ≠ t → w'.fs.node (c.child t') = w.fs.node (c.child t')) :
    ∀ t', c.OwnTemp i w' t' → t' ∈ insert t S := by
  intro t' ht'
  by_cases htt : t' = t
  · exact .inl htt
  · exact .inr (h.temps t' (ht'.of_same (hnode t' htt).symm))

/-! ## The cache directory -/

theorem Rooted.resolve_chain (h : c.Rooted w) {ns : List Bytes} (hns : ns <+: c.names) :
    w.fs.resolve (render c.rooted (c.pre ++ ns)) =
      if w.fs.isDir (c.anchor ++ ns) = true then .ok (c.anchor ++ ns) else .error .noent := by
  by_cases hne : ns = []
  · subst hne
    simp only [List.append_nil, h.at_pre.isDir, if_true]
    exact h.at_pre.resolve
  · obtain ⟨fuel, hwalk⟩ := h.at_pre.walk_below
    have hnames : ∀ y ∈ ns, Name y := fun y hy => c.names_proper y (hns.subset hy)
    unfold FS.resolve
    rw [hwalk ns hnames hne]
    refine FS.walk_open h.at_pre.isDir hnames fun ns' hne' hns' => ?_
    exact h.chain ns' hne' (hns'.trans hns)

theorem stat_isDir {fs : FS} {path : Bytes} {p : Loc} {info : FileInfo}
    (hp : fs.resolve path = .ok p) (h : fs.stat path = .ok info) :
    info.type = .dir ↔ fs.isDir p = true := by
  simp only [FS.stat, hp] at h
  cases hn : fs.node p with
  | none =>
      rw [hn] at h
      cases h
  | some n =>
      rw [hn] at h
      cases h
      rw [info_type, Node.type]
      cases hk : n.kind <;> simp [FS.isDir, hn, Node.isDir, hk]

theorem Setting.stage_isDir (g : c.Setting x i R J) {ns : List Bytes} (hns : ns <+: c.names) :
    Stable R fun w => c.Stage i J S w ∧ w.fs.isDir (c.anchor ++ ns) = true := by
  intro w w' hR ⟨h, hd⟩
  obtain ⟨j, hji, hstep⟩ := g.rely w w' hR
  exact ⟨g.stage S w w' hR h, hstep.framed.isDir_chain hns hd⟩

/-- `MkdirAll` first asks whether the directory is there. -/
theorem Setting.stat_chain (g : c.Setting x i R J) {ns : List Bytes} (hns : ns <+: c.names) :
    Triple (exec m i) R (c.Allowed x i) (c.Stage i J S)
      (Sys.stat (render c.rooted (c.pre ++ ns))) fun r w =>
        match r with
        | .ok info => info.type = .dir ∧ c.Stage i J S w ∧ w.fs.isDir (c.anchor ++ ns) = true
        | .error _ => c.Stage i J S w := by
  refine triple_perform (g.stage S) ?_ fun r => ?_
  · intro w r w' hw hE
    obtain ⟨rfl, hr | ⟨_, k, rfl⟩⟩ := exec_stat hE
    · refine ⟨Allowed.refl c x i w', ?_⟩
      cases r with
      | error e => exact hw
      | ok info =>
          have hres := hw.rooted.resolve_chain hns
          by_cases hd : w'.fs.isDir (c.anchor ++ ns) = true
          · rw [if_pos hd] at hres
            exact ⟨(stat_isDir hres hr.symm).mpr hd, hw, hd⟩
          · rw [if_neg hd] at hres
            simp [FS.stat, hres] at hr
    · exact ⟨Allowed.refl c x i w', hw⟩
  · cases r with
    | error e => exact g.stage S
    | ok info => exact (Stable.const _).and (g.stage_isDir hns)

/-- What `MkdirAll` has made of a directory on the way. -/
def Made (c : CacheSite) (m : Mode) (i : Nat) (J : World → Prop) (S : Set Bytes) (ns : List Bytes)
    (r : Except Errno Unit) (w : World) : Prop :=
  match r with
  | .ok () => c.Stage i J S w ∧ w.fs.isDir (c.anchor ++ ns) = true
  | .error _ => c.Stage i J S w ∧ m.Faulty

/-- The call is past the directories `front`; the one called `a` in them is there, or
the machine has failed. -/
def Tried (c : CacheSite) (m : Mode) (i : Nat) (J : World → Prop) (S : Set Bytes)
    (front : List Bytes) (a : Bytes) (w : World) : Prop :=
  (c.Stage i J S w ∧ w.fs.isDir (c.anchor ++ front) = true) ∧
    (w.fs.isDir (c.anchor ++ (front ++ [a])) = true ∨ m.Faulty)

section

variable {front : List Bytes} {a : Bytes}

theorem locate_chain (h : c.Rooted w) (hns : front ++ [a] <+: c.names)
    (hd : w.fs.isDir (c.anchor ++ front) = true) :
    w.fs.locate (render c.rooted (c.pre ++ (front ++ [a]))) = .ok (c.anchor ++ (front ++ [a])) := by
  have hnames : ∀ y ∈ front ++ [a], Name y := fun y hy => c.names_proper y (hns.subset hy)
  have := h.at_pre.locate_names front (c := a)
    (fun y hy => hnames y (List.mem_append_left _ hy)) (hnames a (by simp)) hd
  simpa using this

theorem Setting.stable_tried (g : c.Setting x i R J) (hns : front ++ [a] <+: c.names) :
    Stable R (c.Tried m i J S front a) := by
  rintro w w' hR ⟨h, hd⟩
  refine ⟨g.stage_isDir ((List.prefix_append front [a]).trans hns) w w' hR h, ?_⟩
  exact hd.imp_left fun hd => (g.stage_isDir hns w w' hR ⟨h.1, hd⟩).2

/-- `mkdir` fails because the directory is there, or because the machine does. -/
theorem Setting.mkdir_chain (g : c.Setting x i R J) (hns : front ++ [a] <+: c.names) (perm : Nat) :
    Triple (exec m i) R (c.Allowed x i)
      (fun w => c.Stage i J S w ∧ w.fs.isDir (c.anchor ++ front) = true)
      (Sys.mkdir (render c.rooted (c.pre ++ (front ++ [a]))) perm) fun r w =>
        match r with
        | .ok () => c.Stage i J S w ∧ w.fs.isDir (c.anchor ++ (front ++ [a])) = true
        | .error _ => c.Tried m i J S front a w := by
  refine triple_perform (g.stage_isDir ((List.prefix_append front [a]).trans hns)) ?_ fun r => ?_
  · intro w r w' ⟨hw, hd⟩ hE
    rcases exec_mkdir hE with ⟨hf, ⟨k, rfl⟩, rfl⟩ | h
    · exact ⟨Allowed.refl c x i w', ⟨hw, hd⟩, .inr (.inl ⟨_, hf⟩)⟩
    · simp only [Nominal, locate_chain hw.rooted hns hd] at h
      rcases creates_cases h with ⟨e, he, _⟩ | ⟨p, hp, hn, rfl, rfl⟩ | ⟨p, hv, hp, rfl, rfl⟩
      · cases he
      · cases hp
        rcases hw.rooted.chain (front ++ [a]) (by simp) hns with hnone | hdir
        · exact absurd hnone hn
        · exact ⟨Allowed.refl c x i w', ⟨hw, hd⟩, .inl hdir⟩
      · cases hp
        have htidy := tidy_add_chain (c := c) (i := i) (w := w) (by simp) hns (w.perm perm) hv
          (by simp)
        refine ⟨.inl htidy, g.stage_step hw htidy (hw.temps_of_nodes fun t _ => .inl ?_), ?_⟩
        · have := chain_ne_child hns t []
          rw [List.append_nil] at this
          simp [this.symm]
        · simp [FS.isDir, Node.isDir]
  · cases r with
    | ok _ => exact g.stage_isDir hns
    | error e => exact g.stable_tried hns

/-- Another call may create the directory at the same time. -/
theorem Setting.mkdirLast_chain (g : c.Setting x i R J) (hns : front ++ [a] <+: c.names)
    (perm : Nat) :
    Triple (exec m i) R (c.Allowed x i)
      (fun w => c.Stage i J S w ∧ w.fs.isDir (c.anchor ++ front) = true)
      (Os.mkdirLast (render c.rooted (c.pre ++ (front ++ [a]))) perm)
      (c.Made m i J S (front ++ [a])) := by
  unfold Os.mkdirLast
  simp only [Prog.bind_eq]
  refine triple_bind (g.mkdir_chain hns perm) fun r => ?_
  cases r with
  | ok _ => exact triple_ret (g.stage_isDir hns) fun _ h => h
  | error e =>
      refine triple_bind (M := fun (r : Except Errno FileInfo) w => match r with
        | .ok info => info.type = .dir ∧ c.Stage i J S w ∧
            w.fs.isDir (c.anchor ++ (front ++ [a])) = true
        | .error _ => c.Stage i J S w ∧ m.Faulty) ?_ fun r => ?_
      · refine triple_perform (g.stable_tried hns) ?_ fun r => ?_
        · rintro w r w' ⟨⟨hw, hd⟩, hthere⟩ hE
          obtain ⟨rfl, hr | ⟨hf, k, rfl⟩⟩ := exec_lstat hE
          · refine ⟨Allowed.refl c x i w', ?_⟩
            rw [FS.lstat, locate_chain hw.rooted hns hd] at hr
            cases hn : w'.fs.node (c.anchor ++ (front ++ [a])) with
            | none =>
                simp only [hn] at hr
                subst hr
                refine ⟨hw, hthere.resolve_left fun hdir => ?_⟩
                exact FS.node_ne_none_of_isDir hdir hn
            | some n =>
                simp only [hn] at hr
                subst hr
                rcases hw.rooted.chain (front ++ [a]) (by simp) hns with hnone | hdir
                · rw [hn] at hnone
                  cases hnone
                · refine ⟨?_, hw, hdir⟩
                  rw [info_type, Node.type]
                  cases hk : n.kind <;> simp [FS.isDir, hn, Node.isDir, hk] at hdir ⊢
          · exact ⟨Allowed.refl c x i w', hw, .inl ⟨_, hf⟩⟩
        · cases r with
          | ok info => exact (Stable.const _).and (g.stage_isDir hns)
          | error e => exact (g.stage S).and (Stable.const _)
      · cases r with
        | error e' => exact triple_ret ((g.stage S).and (Stable.const _)) fun _ h => h
        | ok info =>
            refine triple_pure fun hty => ?_
            simp only [hty, if_true]
            exact triple_ret (g.stage_isDir hns) fun _ h => h

end

theorem Setting.mkdirAllFrom_anchor (g : c.Setting x i R J) (fuel perm : Nat) :
    Triple (exec m i) R (c.Allowed x i) (c.Stage i J S)
      (Os.mkdirAllFrom fuel (render c.rooted (c.pre ++ [])) perm) (c.Made m i J S []) := by
  rw [List.append_nil]
  refine triple_post (Os.mkdirAllFrom_existing (Allowed.refl c x i) (g.stage S) c.pre_clean
    (fun w hw => ⟨c.anchor, hw.rooted.at_pre.resolve, hw.rooted.at_pre.isDir⟩) fuel perm) ?_
  intro r w ⟨hr, hw⟩
  cases r with
  | ok _ => exact ⟨hw, by simpa using hw.rooted.at_pre.isDir⟩
  | error e => exact ⟨hw, hr.resolve_left (by simp)⟩

/-- `MkdirAll` on a directory on the way to the cache. -/
theorem Setting.mkdirAllFrom_chain (g : c.Setting x i R J) {ns : List Bytes}
    (hns : ns <+: c.names) {fuel : Nat} (hfuel : ns.length ≤ fuel) (perm : Nat) :
    Triple (exec m i) R (c.Allowed x i) (c.Stage i J S)
      (Os.mkdirAllFrom fuel (render c.rooted (c.pre ++ ns)) perm) (c.Made m i J S ns) := by
  induction fuel generalizing ns with
  | zero =>
      have hnil : ns = [] := List.length_eq_zero_iff.mp (Nat.le_zero.mp hfuel)
      subst hnil
      exact g.mkdirAllFrom_anchor 0 perm
  | succ fuel ih =>
      rcases List.eq_nil_or_concat ns with rfl | ⟨front, a, rfl⟩
      · exact g.mkdirAllFrom_anchor (fuel + 1) perm
      rw [List.concat_eq_append] at hns hfuel ⊢
      have hfront : front <+: c.names := (List.prefix_append front [a]).trans hns
      have hclean : CleanParts c.rooted (c.pre ++ front ++ [a]) := by
        rw [List.append_assoc]
        exact c.pre_clean.append fun y hy => c.names_proper y (hns.subset hy)
      unfold Os.mkdirAllFrom
      simp only [Prog.bind_eq]
      refine triple_bind (g.stat_chain hns) fun r => ?_
      cases r with
      | ok info =>
          refine triple_pure fun hty => ?_
          simp only [hty, if_true]
          exact triple_ret (g.stage_isDir hns) fun _ h => h
      | error e =>
          simp only
          have hparent := Os.parentPath_render hclean
          rw [List.append_assoc] at hparent
          split
          · -- a relative path of one element: its directory is the anchor itself
            rename_i hnil
            rw [hparent] at hnil
            split at hnil
            · rename_i hempty
              have hf : front = [] := (List.append_eq_nil_iff.mp hempty.1).2
              subst hf
              refine triple_pre (g.mkdirLast_chain hns perm) fun w hw => ⟨hw, ?_⟩
              simpa using hw.rooted.at_pre.isDir
            · exact absurd hnil (render_ne_nil (CleanParts.front hclean))
          · rename_i hne
            rw [hparent] at hne ⊢
            rw [if_neg fun h => hne (if_pos h)]
            refine triple_bind (ih hfront (by simpa using hfuel)) fun r => ?_
            cases r with
            | ok _ => exact g.mkdirLast_chain hns perm
            | error e => exact triple_ret ((g.stage S).and (Stable.const _)) fun _ h => h

/-- `MkdirAll(cacheBase)` fails only with the machine. -/
theorem Setting.mkdirAll_base (g : c.Setting x i R J) (perm : Nat) :
    Triple (exec m i) R (c.Allowed x i) (c.Stage i J S) (Os.mkdirAll c.base perm) fun r w =>
      match r with
      | .ok () => c.Settled i J S w
      | .error _ => c.Stage i J S w ∧ m.Faulty := by
  have hlen : c.names.length ≤ c.base.length := by
    have hle := length_le_render c.parts_clean
    rw [parts, List.length_append] at hle
    exact Nat.le_trans (Nat.le_add_left _ _) hle
  refine triple_post (g.mkdirAllFrom_chain (List.prefix_refl _) hlen perm) fun r w h => ?_
  cases r with
  | ok _ => exact ⟨h.1, h.2⟩
  | error e => exact h

/-- Once the directory is there, only the first `stat` can make it fail. -/
theorem Setting.mkdirAll_ready (g : c.Setting x i R J) (hm : ¬ m.fails (.stat c.base))
    (perm : Nat) :
    Triple (exec m i) R (c.Allowed x i) (c.Settled i J S) (Os.mkdirAll c.base perm) fun r w =>
      r = .ok () ∧ c.Settled i J S w := by
  have hstat : Triple (exec m i) R (c.Allowed x i) (c.Settled i J S) (Sys.stat c.base) fun r w =>
      (∃ info, r = .ok info ∧ info.type = .dir) ∧ c.Settled i J S w := by
    refine triple_reads _ (Allowed.refl c x i) (g.settled S) fun w r w' hw hE => ?_
    obtain ⟨hw', hr | ⟨hf, _⟩⟩ := exec_stat hE
    · refine ⟨hw', ?_⟩
      have hres := (hw.rooted.at_base hw.ready).resolve
      have hdir := hw.ready
      unfold Ready at hdir
      cases hst : w.fs.stat c.base with
      | ok info => exact ⟨info, hr.trans hst, (stat_isDir hres hst).mpr hdir⟩
      | error e =>
          obtain ⟨n, hn, _⟩ := FS.isDir_iff.mp hdir
          unfold base at hst
          simp [FS.stat, hres, hn] at hst
    · exact absurd hf hm
  have hret : Triple (exec m i) R (c.Allowed x i) (c.Settled i J S)
      (Prog.ret (.ok ()) : Sys (Except Errno Unit)) fun r w => r = .ok () ∧ c.Settled i J S w :=
    triple_ret (g.settled S) fun w h => ⟨rfl, h⟩
  unfold Os.mkdirAll
  cases c.base.length with
  | zero =>
      unfold Os.mkdirAllFrom
      refine triple_bind hstat fun r => triple_pure fun hr => ?_
      obtain ⟨info, rfl, hty⟩ := hr
      simp only [hty, if_true]
      exact hret
  | succ fuel =>
      unfold Os.mkdirAllFrom
      refine triple_bind hstat fun r => triple_pure fun hr => ?_
      obtain ⟨info, rfl, hty⟩ := hr
      simp only [hty, if_true]
      exact hret

end CacheSite

end BuilderShim.Fileutils
