/-
  Fileutils/CacheRely.lean --- what one call may rely on, and what it may do.

  The first part is about the steps of the others: they leave alone the call's
  temporaries and the entry whose lock it holds.  The second part shows the
  file-system updates a call makes to be steps of the protocol.
-/
import BuilderShim.Foundation.Pool
import BuilderShim.Fileutils.CacheFrame

set_option autoImplicit false

namespace BuilderShim.Fileutils

open BuilderShim.Filepath
open BuilderShim.Foundation
open BuilderShim.Posix

namespace CacheSite

variable {c : CacheSite} {x : Extern} {i j : Nat} {w w' : World} {d t : Bytes}

/-! ## Temporaries -/

theorem Allowed.entry (h : c.Allowed x j w w') (ht : ¬ IsDigest t) : c.EntryStep j w w' t := by
  rcases h with h | ⟨d', h⟩
  · exact h.entry t
  · exact h.entry t fun he => ht (he ▸ h.digest)

theorem OwnTemp.owner_eq (h : c.OwnTemp i w t) (h' : c.OwnTemp j w t) : i = j := by
  obtain ⟨n, hn, hi⟩ := h.owner
  obtain ⟨n', hn', hj⟩ := h'.owner
  rw [hn] at hn'
  cases hn'
  exact hi.symm.trans hj

theorem OwnTemp.node_ne_none (h : c.OwnTemp i w t) : w.fs.node (c.child t) ≠ none := by
  obtain ⟨n, hn, _⟩ := h.owner
  simp [hn]

theorem OwnTemp.of_same (h : c.OwnTemp i w t)
    (hs : w'.fs.node (c.child t) = w.fs.node (c.child t)) :
    c.OwnTemp i w' t := by
  obtain ⟨n, hn, hi⟩ := h.owner
  exact ⟨h.temp, n, hs.trans hn, hi⟩

/-- The temporaries of a call are left alone by the others. -/
theorem Allowed.temp_same (h : c.Allowed x j w w') (hij : j ≠ i) (ht : c.OwnTemp i w t) :
    c.Same w w' t := by
  rcases h.entry ht.temp.not_digest with hsame | ⟨_, hbefore, _⟩ | ⟨d', hd', heq, _, _⟩ |
    ⟨hd, _, _, _⟩
  · exact hsame
  · rcases hbefore with hnone | hown
    · exact absurd hnone ht.node_ne_none
    · exact absurd (hown.owner_eq ht) hij
  · exact absurd heq (ht.temp.not_lock hd')
  · exact absurd hd ht.temp.not_digest

theorem Allowed.ownTemp (h : c.Allowed x j w w') (hij : j ≠ i) (ht : c.OwnTemp i w t) :
    c.OwnTemp i w' t :=
  ht.of_same (h.temp_same hij ht).self

/-- The others create no temporary in the name of `i`. -/
theorem Allowed.ownTemp_back (h : c.Allowed x j w w') (hij : j ≠ i) (ht : c.OwnTemp i w' t) :
    c.OwnTemp i w t := by
  rcases h.entry ht.temp.not_digest with hsame | ⟨_, _, hafter⟩ | ⟨d', hd', heq, _, _⟩ |
    ⟨hd, _, _, _⟩
  · exact ht.of_same hsame.self.symm
  · rcases hafter with hnone | hown
    · exact absurd hnone ht.node_ne_none
    · exact absurd (hown.owner_eq ht) hij
  · exact absurd heq (ht.temp.not_lock hd')
  · exact absurd hd ht.temp.not_digest

variable {k perm : Nat} {rel q p : Loc}

theorem Allowed.temp_inode (h : c.Allowed x j w w') (hij : j ≠ i) (ht : c.OwnTemp i w t)
    (hk : w.fs.RefersTo (c.child t ++ rel) k) : w'.fs.inode k = w.fs.inode k := by
  by_contra hne
  obtain ⟨t', ht', hpre⟩ := h.framed.inode k hk.lt hne _ hk
  have htt : t' = t := child_eq_of_below hpre (List.prefix_append _ _)
  subst htt
  exact hij (ht'.owner_eq ht)

/-- The others give no further name to a file in a temporary. -/
theorem Allowed.temp_refs (h : c.Allowed x j w w') (hij : j ≠ i) (ht : c.OwnTemp i w t)
    (hsealed : ∀ q k rel, w.fs.RefersTo (c.child t ++ rel) k → w.fs.RefersTo q k → c.child t <+: q)
    (hk : w.fs.RefersTo (c.child t ++ rel) k) (hq : w'.fs.RefersTo q k) :
    w.fs.RefersTo q k := by
  rcases h.framed.refs q k hq hk.lt with hold | ⟨q', ⟨t', ht', hpre⟩, hq'⟩
  · exact hold
  · have htt : t' = t := child_eq_of_below hpre (hsealed q' k rel hk hq')
    subst htt
    exact absurd (ht'.owner_eq ht) hij

/-! ## Locks -/

theorem Allowed.lock_held (h : c.Allowed x j w w') (hij : j ≠ i) (hp : w.locks p = some i) :
    w'.locks p = some i := by
  rcases h.framed.locks p with hsame | ⟨hnone, _⟩ | ⟨hj, _⟩
  · exact hsame.trans hp
  · rw [hp] at hnone
    cases hnone
  · rw [hp] at hj
    exact absurd (Option.some.inj hj).symm hij

/-- An entry whose lock a call holds is left alone by the others. -/
theorem Allowed.locked_same (h : c.Allowed x j w w') (hij : j ≠ i) (hd : IsDigest d)
    (hp : w.locks (c.lockLoc d) = some i) : c.Same w w' d := by
  have hstep : c.EntryStep j w w' d := by
    rcases h with h | ⟨d', h⟩
    · exact h.entry d
    · refine h.entry d ?_
      rintro rfl
      have hheld := h.held
      rw [hp] at hheld
      exact absurd (Option.some.inj hheld).symm hij
  rcases hstep with hsame | ⟨ht, _, _⟩ | ⟨d', hd', ht, _, _⟩ | ⟨_, hheld, _, _⟩
  · exact hsame
  · exact absurd hd ht.not_digest
  · exact absurd ht (hd.ne_lockName hd')
  · rw [hp] at hheld
    exact absurd (Option.some.inj hheld).symm hij

/-! ## Steps a call takes -/

/-- A step that changes nodes under one name only. -/
theorem tidy_local (t : Bytes)
    (hnode : ∀ q, ¬ c.child t <+: q → w'.fs.node q = w.fs.node q)
    (hcwd : w'.fs.cwd = w.fs.cwd) (humask : w'.umask = w.umask) (hentry : c.EntryStep i w w' t)
    (hinode : ∀ k, k < w.fs.nextIno → w'.fs.inode k ≠ w.fs.inode k →
      ∀ q, w.fs.RefersTo q k → c.UnderOwn i w q)
    (hrefs : ∀ q k, w'.fs.RefersTo q k → k < w.fs.nextIno →
      w.fs.RefersTo q k ∨ ∃ q', c.UnderOwn i w q' ∧ w.fs.RefersTo q' k)
    (hnext : w.fs.nextIno ≤ w'.fs.nextIno)
    (hlocks : ∀ p, w'.locks p = w.locks p ∨ (w.locks p = none ∧ w'.locks p = some i) ∨
      (w.locks p = some i ∧ w'.locks p = none)) : c.Tidy i w w' where
  framed :=
    { outside := by
        intro q hq
        refine hnode q ?_
        rintro ⟨rel, rfl⟩
        exact hq (c.inner_child t rel)
      cwd := hcwd
      umask := humask
      chain := by
        intro ns _ hpre
        refine .inl (hnode _ ?_)
        rintro ⟨rel, heq⟩
        exact chain_ne_child hpre t rel heq.symm
      inode := hinode
      refs := hrefs
      nextIno := hnext
      locks := hlocks }
  entry t' := by
    by_cases htt : t' = t
    · rw [htt]
      exact hentry
    · refine .same fun rel => hnode _ fun hpre => htt ?_
      exact child_eq_of_below (List.prefix_append _ _) hpre

theorem Tidy.refl (c : CacheSite) (i : Nat) (w : World) : c.Tidy i w w :=
  tidy_local [] (fun _ _ => rfl) rfl rfl (.same fun _ => rfl) (fun _ _ h => absurd rfl h)
    (fun _ _ h _ => .inl h) (Nat.le_refl _) fun _ => .inl rfl

/-- Working inside a directory of one's own. -/
theorem tidy_confined (ht : c.OwnTemp i w t) (h : Confined (c.child t) w w') : c.Tidy i w w' := by
  have hnotbelow : ∀ q, ¬ c.child t <+: q → ¬ Below (c.child t) q := by
    rintro q hq ⟨rel, _, rfl⟩
    exact hq (List.prefix_append _ _)
  have htop : w'.fs.node (c.child t) = w.fs.node (c.child t) := by
    refine (h.outside ?_).1
    rintro ⟨rel, hrel, heq⟩
    exact hrel (List.self_eq_append_right.mp heq)
  have hunder : ∀ q, Below (c.child t) q → c.UnderOwn i w q := by
    rintro q ⟨rel, _, rfl⟩
    exact ⟨t, ht, List.prefix_append _ _⟩
  refine tidy_local t (fun q hq => (h.outside (hnotbelow q hq)).1) h.grows.cwd h.umask
    (.temp ht.temp (.inr ht) (.inr (ht.of_same htop)))
    (fun k hk hne q hq => hunder q (h.written k hk hne q hq)) ?_ h.nextIno
    fun p => .inl (by rw [h.locks])
  intro q k hq hk
  cases hn : w.fs.node q with
  | none =>
      obtain ⟨q', hq', href⟩ := h.linked q k hn hq hk
      exact .inr ⟨q', hunder q' hq', href⟩
  | some n =>
      obtain ⟨n', hn', hkind⟩ := hq
      rw [h.grows.node q n hn] at hn'
      cases hn'
      exact .inl ⟨n, hn, hkind⟩

/-- Creating a file under a name of the cache. -/
theorem tidy_addFile {hv : w.fs.Vacant (c.child t)}
    (hentry : c.EntryStep i w (w.setFs (w.fs.addFile (c.child t) perm i hv)) t) :
    c.Tidy i w (w.setFs (w.fs.addFile (c.child t) perm i hv)) := by
  refine tidy_local t ?_ rfl rfl hentry ?_ ?_ (by simp) fun _ => .inl rfl
  · intro q hq
    have hne : q ≠ c.child t := by
      rintro rfl
      exact hq (List.prefix_refl _)
    simp [hne]
  · intro k hk hne
    exact absurd (by simp [Nat.ne_of_lt hk]) hne
  · intro q k hq hk
    obtain ⟨n, hn, hkind⟩ := hq
    by_cases hqt : q = c.child t
    · simp only [World.setFs_fs, FS.addFile_node, hqt, if_true, Option.some.injEq] at hn
      subst hn
      cases hkind
      exact absurd hk (Nat.lt_irrefl _)
    · exact .inl ⟨n, by simpa [hqt] using hn, hkind⟩

theorem ownTemp_addFile (ht : TempName t) (hv : w.fs.Vacant (c.child t)) :
    c.OwnTemp i (w.setFs (w.fs.addFile (c.child t) perm i hv)) t :=
  ⟨ht, ⟨.file w.fs.nextIno, i⟩, by simp, rfl⟩

/-- Creating a temporary file. -/
theorem tidy_addFile_temp (ht : TempName t) (perm : Nat) (hv : w.fs.Vacant (c.child t)) :
    c.Tidy i w (w.setFs (w.fs.addFile (c.child t) perm i hv)) :=
  tidy_addFile (.temp ht (.inl hv.free) (.inr (ownTemp_addFile ht hv)))

/-- Creating a lock file. -/
theorem tidy_addFile_lock (hd : IsDigest d) (perm : Nat) (hv : w.fs.Vacant (c.lockLoc d)) :
    c.Tidy i w (w.setFs (w.fs.addFile (c.lockLoc d) perm i hv)) :=
  tidy_addFile (.lock d hd rfl hv.free
    ⟨w.fs.nextIno, ⟨.file w.fs.nextIno, i⟩, if_pos rfl, rfl⟩)

theorem ownTemp_add (ht : TempName t) (perm : Nat) (hv : w.fs.Vacant (c.child t))
    (hi : ∀ k, Kind.dir perm = .file k → k < w.fs.nextIno) :
    c.OwnTemp i (w.setFs (w.fs.add (c.child t) ⟨.dir perm, i⟩ hv hi)) t :=
  ⟨ht, ⟨.dir perm, i⟩, by simp, rfl⟩

theorem refersTo_add_dir {fs : FS} {o : Nat} (hv : fs.Vacant p)
    (hi : ∀ k, Kind.dir perm = .file k → k < fs.nextIno)
    (h : (fs.add p ⟨.dir perm, o⟩ hv hi).RefersTo q k) : fs.RefersTo q k := by
  obtain ⟨n, hn, hkind⟩ := h
  by_cases hqp : q = p
  · simp only [FS.add_node, hqp, if_true, Option.some.injEq] at hn
    subst hn
    cases hkind
  · exact ⟨n, by simpa [hqp] using hn, hkind⟩

/-- Creating a temporary directory. -/
theorem tidy_add_temp (ht : TempName t) (perm : Nat) (hv : w.fs.Vacant (c.child t))
    (hi : ∀ k, Kind.dir perm = .file k → k < w.fs.nextIno) :
    c.Tidy i w (w.setFs (w.fs.add (c.child t) ⟨.dir perm, i⟩ hv hi)) := by
  refine tidy_local t ?_ rfl rfl (.temp ht (.inl hv.free) (.inr (ownTemp_add ht perm hv hi)))
    (fun k _ hne => absurd rfl hne) (fun q k hq _ => .inl (refersTo_add_dir hv hi hq))
    (Nat.le_refl _) fun _ => .inl rfl
  intro q hq
  have hne : q ≠ c.child t := by
    rintro rfl
    exact hq (List.prefix_refl _)
  simp [hne]

/-- Creating a directory on the way to the cache. -/
theorem tidy_add_chain {ns : List Bytes} (hne : ns ≠ []) (hns : ns <+: c.names) (perm : Nat)
    (hv : w.fs.Vacant (c.anchor ++ ns)) (hi : ∀ k, Kind.dir perm = .file k → k < w.fs.nextIno) :
    c.Tidy i w (w.setFs (w.fs.add (c.anchor ++ ns) ⟨.dir perm, i⟩ hv hi)) where
  framed :=
    { outside := by
        intro q hq
        have hqne : q ≠ c.anchor ++ ns := by
          rintro rfl
          refine hq ⟨⟨ns, hne, rfl⟩, .inl ?_⟩
          exact (List.prefix_append_right_inj c.anchor).mpr hns
        simp [hqne]
      cwd := rfl
      umask := rfl
      chain := by
        intro ns' _ _
        by_cases heq : c.anchor ++ ns' = c.anchor ++ ns
        · refine .inr ⟨heq ▸ hv.free, ?_⟩
          simp [FS.isDir, heq, Node.isDir]
        · exact .inl (by simp [heq])
      inode := fun k _ hne' => absurd rfl hne'
      refs := fun q k hq _ => .inl (refersTo_add_dir hv hi hq)
      nextIno := Nat.le_refl _
      locks := fun _ => .inl rfl }
  entry t := by
    refine .same fun rel => ?_
    have := chain_ne_child hns t rel
    simp [this.symm]

/-- Writing to a file of one's own. -/
theorem tidy_setData (k : Nat) (data : Bytes) (hk : ∀ q, w.fs.RefersTo q k → c.UnderOwn i w q) :
    c.Tidy i w (w.setFs (w.fs.setData k data)) := by
  refine tidy_local [] (fun _ _ => rfl) rfl rfl (.same fun _ => rfl) ?_ (fun _ _ h _ => .inl h)
    (Nat.le_refl _) fun _ => .inl rfl
  intro k' _ hne q hq
  by_cases hkk : k' = k
  · rw [hkk] at hq
    exact hk q hq
  · exact absurd (by simp [hkk]) hne

theorem refersTo_erase {fs : FS} (h : fs.Removable p) (hq : (fs.erase p h).RefersTo q k) :
    fs.RefersTo q k := by
  obtain ⟨n, hn, hkind⟩ := hq
  by_cases hqp : q = p
  · simp [hqp] at hn
  · exact ⟨n, by simpa [hqp] using hn, hkind⟩

/-- Removing something of one's own. -/
theorem tidy_erase_temp (ht : c.OwnTemp i w t) (hrm : w.fs.Removable (c.child t ++ rel)) :
    c.Tidy i w (w.setFs (w.fs.erase (c.child t ++ rel) hrm)) := by
  have hafter : (w.setFs (w.fs.erase (c.child t ++ rel) hrm)).fs.node (c.child t) = none ∨
      c.OwnTemp i (w.setFs (w.fs.erase (c.child t ++ rel) hrm)) t := by
    by_cases hrel : rel = []
    · exact .inl (by simp [hrel])
    · refine .inr (ht.of_same ?_)
      simp [hrel]
  refine tidy_local t ?_ rfl rfl (.temp ht.temp (.inr ht) hafter)
    (fun k _ hne => absurd rfl hne) (fun q k hq _ => .inl (refersTo_erase hrm hq)) (Nat.le_refl _)
    fun _ => .inl rfl
  intro q hq
  have hne : q ≠ c.child t ++ rel := by
    rintro rfl
    exact hq (List.prefix_append _ _)
  simp [hne]

/-- Removing a part of a stale entry. -/
theorem tidy_erase_stale (hd : IsDigest d) (hheld : w.locks (c.lockLoc d) = some i)
    (hstale : c.answer w d = some (.ok false)) (hrm : w.fs.Removable (c.child d ++ rel)) :
    c.Tidy i w (w.setFs (w.fs.erase (c.child d ++ rel) hrm)) := by
  refine tidy_local d ?_ rfl rfl (.clear hd hheld hstale ?_)
    (fun k _ hne => absurd rfl hne) (fun q k hq _ => .inl (refersTo_erase hrm hq)) (Nat.le_refl _)
    fun _ => .inl rfl
  · intro q hq
    have hne : q ≠ c.child d ++ rel := by
      rintro rfl
      exact hq (List.prefix_append _ _)
    simp [hne]
  · intro rel'
    by_cases hrr : rel' = rel
    · exact .inr (by simp [hrr])
    · exact .inl (by simp [hrr])

theorem EntryStep.of_fs {w'' : World} (h : c.EntryStep i w w' t) (hfs : w''.fs = w'.fs) :
    c.EntryStep i w w'' t := by
  rcases h with hsame | ⟨ht, hbefore, hafter⟩ | ⟨d', hd', ht, hbefore, hafter⟩ |
    ⟨hd, hheld, hstale, hshrinks⟩
  · exact .same fun rel => by rw [hfs]; exact hsame rel
  · refine .temp ht hbefore (hafter.imp (fun h => by rw [hfs]; exact h) fun h => ?_)
    exact h.of_same (by rw [hfs])
  · exact .lock d' hd' ht hbefore (by rw [hfs]; exact hafter)
  · exact .clear hd hheld hstale fun rel => by rw [hfs]; exact hshrinks rel

/-- Taking a lock, in a step that may also have created its file. -/
theorem Tidy.lock (h : c.Tidy i w w') (hp : w.locks p = none) :
    c.Tidy i w (w'.setLock p (some i)) where
  framed :=
    { h.framed with
      locks := by
        intro q
        by_cases hqp : q = p
        · exact .inr (.inl ⟨by rw [hqp, hp], by simp [World.setLock, hqp]⟩)
        · have hq : (w'.setLock p (some i)).locks q = w'.locks q := by
            simp [World.setLock, hqp]
          rw [hq]
          exact h.framed.locks q }
  entry t := (h.entry t).of_fs rfl

/-- Giving back a lock. -/
theorem tidy_unlock (hp : w.locks p = some i) : c.Tidy i w (w.setLock p none) := by
  refine tidy_local [] (fun _ _ => rfl) rfl rfl (.same fun _ => rfl) (fun _ _ h => absurd rfl h)
    (fun _ _ h _ => .inl h) (Nat.le_refl _) fun q => ?_
  by_cases hqp : q = p
  · exact .inr (.inr ⟨by rw [hqp, hp], by simp [World.setLock, hqp]⟩)
  · exact .inl (by simp [World.setLock, hqp])

end CacheSite

end BuilderShim.Fileutils
