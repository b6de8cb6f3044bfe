/-
  Posix/Region.lean --- one directory as a region of the file system.

  A program that works below a directory `d` is described by what it knows of
  the region (`Holds`: the path leads to `d`, the contents are a given map, no
  file has a name outside), by what its own steps may do (`Confined`) and by what
  the others must leave alone (`Quiet`).  The lemmas say that creating an entry
  and writing to a file just created are confined steps, and what they make of
  the contents.
-/
import BuilderShim.Posix.Syscall

set_option autoImplicit false

namespace BuilderShim.Posix

open BuilderShim.Filepath
open BuilderShim.Foundation

/-- Strictly below `d`. -/
def Below (d q : Loc) : Prop := ∃ rel, rel ≠ [] ∧ q = d ++ rel

/-- The contents of a region, by location relative to its directory. -/
abbrev TreeMap : Type := Loc → Option Content

namespace TreeMap

def insert (T : TreeMap) (p : Loc) (c : Content) : TreeMap := fun q => if q = p then some c else T q

def isDir (T : TreeMap) (p : Loc) : Prop := ∃ perm, T p = some (.dir perm)

@[simp] theorem insert_self (T : TreeMap) (p : Loc) (c : Content) : T.insert p c p = some c := by
  simp [insert]

theorem insert_other {T : TreeMap} {p q : Loc} {c : Content} (h : q ≠ p) :
    T.insert p c q = T q := by
  simp [insert, h]

theorem insert_insert (T : TreeMap) (p : Loc) (c c' : Content) :
    (T.insert p c).insert p c' = T.insert p c' := by
  funext q
  unfold insert
  split <;> rfl

end TreeMap

/-- A directory a program works in: its cleaned path, the location the path leads
to, and the mask for what is created there. -/
structure Site where
  rooted : Bool
  parts : List Bytes
  loc : Loc
  umask : Nat

/-- The path of what the names lead to below the site. -/
def Site.path (s : Site) (names : List Bytes) : Bytes := render s.rooted (s.parts ++ names)

/-- The permissions of what is created with `mode`. -/
def Site.perm (s : Site) (mode : Nat) : Nat := maskPerm s.umask mode

/-- What the region's owner knows: the path leads there, the contents are `T`, and
no file has a name outside. -/
structure Holds (s : Site) (T : TreeMap) (w : World) : Prop where
  leads : w.fs.At s.rooted s.parts s.loc
  view : ∀ rel, w.fs.view s.loc rel = T rel
  closed : w.fs.Sealed s.loc
  umask_eq : w.umask = s.umask

/-- A step that works strictly below `d` and takes nothing away. -/
structure Confined (d : Loc) (w w' : World) : Prop where
  grows : w.fs.Grows w'.fs
  /-- A new entry is strictly below `d`, and `d` and every location from there down
  to the entry is a real directory. -/
  created : ∀ q, w.fs.node q = none → w'.fs.node q ≠ none →
    ∃ names c, q = d ++ (names ++ [c]) ∧ ∀ ns, ns <+: names → w.fs.isDir (d ++ ns) = true
  /-- A new name for an existing file is one for a file strictly below `d`. -/
  linked : ∀ q i, w.fs.node q = none → w'.fs.RefersTo q i → i < w.fs.nextIno →
    ∃ q', Below d q' ∧ w.fs.RefersTo q' i
  /-- Only files all of whose names are strictly below `d` are written. -/
  written : ∀ i, i < w.fs.nextIno → w'.fs.inode i ≠ w.fs.inode i →
    ∀ q, w.fs.RefersTo q i → Below d q
  nextIno : w.fs.nextIno ≤ w'.fs.nextIno
  locks : w'.locks = w.locks
  umask : w'.umask = w.umask

theorem Confined.refl (d : Loc) (w : World) : Confined d w w where
  grows := ⟨fun _ _ h => h, rfl⟩
  created _ h h' := absurd h h'
  linked q i h h' := by
    obtain ⟨n, hn, _⟩ := h'
    rw [h] at hn
    cases hn
  written _ _ h := absurd rfl h
  nextIno := Nat.le_refl _
  locks := rfl
  umask := rfl

/-- Nothing at or above `d`, or beside it, changes. -/
theorem Confined.outside {d q : Loc} {w w' : World} (h : Confined d w w') (hq : ¬ Below d q) :
    w'.fs.node q = w.fs.node q ∧
      (w'.fs.node q).map w'.fs.content = (w.fs.node q).map w.fs.content := by
  have hnode : w'.fs.node q = w.fs.node q := by
    cases hn : w.fs.node q with
    | some n => exact h.grows.node q n hn
    | none =>
        by_contra hne
        obtain ⟨names, c, rfl, _⟩ := h.created q hn hne
        exact hq ⟨names ++ [c], by simp, by simp⟩
  refine ⟨hnode, ?_⟩
  rw [hnode]
  refine Option.map_congr fun n hn => FS.content_congr fun i hk => ?_
  have href : w.fs.RefersTo q i := ⟨n, hn, hk⟩
  by_contra hne
  exact hq (h.written i href.lt hne q href)

/-- What the others leave as it is in a region. -/
structure Quiet (s : Site) (w w' : World) : Prop where
  leads : w.fs.At s.rooted s.parts s.loc → w'.fs.At s.rooted s.parts s.loc
  node : ∀ rel, w'.fs.node (s.loc ++ rel) = w.fs.node (s.loc ++ rel)
  inode : ∀ rel i, w.fs.RefersTo (s.loc ++ rel) i → w'.fs.inode i = w.fs.inode i
  closed : w.fs.Sealed s.loc → w'.fs.Sealed s.loc
  umask : w'.umask = w.umask

section Region

variable {s : Site} {T : TreeMap}
variable {w w' : World}

variable {rel names p : Loc} {c : Bytes} {fd : Fd} {perm : Nat}

theorem Quiet.refersTo (h : Quiet s w w') {i : Nat} :
    w'.fs.RefersTo (s.loc ++ rel) i ↔ w.fs.RefersTo (s.loc ++ rel) i := by
  unfold FS.RefersTo
  rw [h.node rel]

theorem Quiet.view (h : Quiet s w w') (rel : Loc) :
    w'.fs.view s.loc rel = w.fs.view s.loc rel := by
  unfold FS.view
  rw [h.node rel]
  exact Option.map_congr fun n hn => FS.content_congr fun i hk => h.inode rel i ⟨n, hn, hk⟩

theorem Holds.quiet (h : Holds s T w) (hq : Quiet s w w') :
    Holds s T w' where
  leads := hq.leads h.leads
  view rel := (hq.view rel).trans (h.view rel)
  closed := hq.closed h.closed
  umask_eq := hq.umask.trans h.umask_eq

theorem Holds.isDir_iff (h : Holds s T w) :
    w.fs.isDir (s.loc ++ rel) = true ↔ T.isDir rel := by
  rw [FS.isDir_iff_view, TreeMap.isDir, h.view rel]

theorem Holds.node_none_iff (h : Holds s T w) :
    w.fs.node (s.loc ++ rel) = none ↔ T rel = none := by
  rw [← h.view rel, FS.view_eq_none_iff]

/-- Every location above a directory of the region is one. -/
theorem Holds.isDir_front (h : Holds s T w) {ns : Loc} (hdir : T.isDir names) (hns : ns <+: names) :
    w.fs.isDir (s.loc ++ ns) = true := by
  obtain ⟨rest, rfl⟩ := hns
  have hd := h.isDir_iff.mpr hdir
  by_cases hr : rest = []
  · subst hr
    simpa using hd
  · rw [← List.append_assoc] at hd
    exact FS.isDir_of_below (FS.node_ne_none_of_isDir hd) hr

theorem Holds.locate (h : Holds s T w) (hnames : ∀ x ∈ names, Name x) (hc : Name c)
    (hdir : T.isDir names) :
    w.fs.locate (s.path (names ++ [c])) = .ok (s.loc ++ (names ++ [c])) := by
  unfold Site.path
  rw [← List.append_assoc, ← List.append_assoc]
  exact h.leads.locate_names names hnames hc (h.isDir_iff.mpr hdir)

/-! ## Creating an entry -/

/-- A node that may be given a name in the region: one without an inode, or one
more name for a file that has a name strictly below already. -/
def Nameable (d : Loc) (w : World) (n : Node) : Prop :=
  ∀ i, n.kind = .file i → ∃ q, Below d q ∧ w.fs.RefersTo q i

theorem Holds.confined_add (h : Holds s T w) (hdir : T.isDir names) {n : Node}
    (hn : Nameable s.loc w n) (hv : w.fs.Vacant (s.loc ++ (names ++ [c])))
    (hi : ∀ i, n.kind = .file i → i < w.fs.nextIno) :
    Confined s.loc w (w.setFs (w.fs.add (s.loc ++ (names ++ [c])) n hv hi)) where
  grows := by
    refine ⟨fun q m hq => ?_, rfl⟩
    have hne : q ≠ s.loc ++ (names ++ [c]) := by
      rintro rfl
      rw [hv.free] at hq
      cases hq
    simp [hne, hq]
  created := by
    intro q hfree hq
    by_cases he : q = s.loc ++ (names ++ [c])
    · exact ⟨names, c, he, fun ns hns => h.isDir_front hdir hns⟩
    · simp [he, hfree] at hq
  linked := by
    intro q i hfree ⟨m, hm, hk⟩ _
    by_cases he : q = s.loc ++ (names ++ [c])
    · simp only [World.setFs_fs, FS.add_node, he, if_true, Option.some.injEq] at hm
      subst hm
      exact hn i hk
    · simp [he, hfree] at hm
  written := by simp
  nextIno := Nat.le_refl _
  locks := rfl
  umask := rfl

theorem Holds.add (h : Holds s T w) (hdir : T.isDir names) {n : Node} (hn : Nameable s.loc w n)
    {hv : w.fs.Vacant (s.loc ++ (names ++ [c]))} {hi : ∀ i, n.kind = .file i → i < w.fs.nextIno} :
    Holds s (T.insert (names ++ [c]) (w.fs.content n))
      (w.setFs (w.fs.add (s.loc ++ (names ++ [c])) n hv hi)) where
  leads := h.leads.grows (h.confined_add hdir hn _ _).grows
  view := by
    intro rel
    by_cases he : rel = names ++ [c]
    · subst he
      simp [FS.view, FS.content]
    · have hne : s.loc ++ rel ≠ s.loc ++ (names ++ [c]) := fun hc => he (List.append_cancel_left hc)
      rw [TreeMap.insert_other he, ← h.view rel]
      simp only [FS.view, World.setFs_fs, FS.add_node, hne, if_false]
      exact Option.map_congr fun m _ => FS.content_congr fun _ _ => rfl
  closed := by
    -- the new name of a file is in the region, and so were all of its others
    rintro rel q i ⟨m, hm, hk⟩ ⟨m', hm', hk'⟩
    by_cases hq : q = s.loc ++ (names ++ [c])
    · exact ⟨names ++ [c], hq.symm⟩
    have hqi : w.fs.RefersTo q i := ⟨m', by simpa [hq] using hm', hk'⟩
    by_cases he : s.loc ++ rel = s.loc ++ (names ++ [c])
    · simp only [World.setFs_fs, FS.add_node, he, if_true, Option.some.injEq] at hm
      subst hm
      obtain ⟨_, ⟨rel', _, rfl⟩, href⟩ := hn i hk
      exact h.closed rel' q i href hqi
    · exact h.closed rel q i ⟨m, by simpa [he] using hm, hk⟩ hqi
  umask_eq := h.umask_eq

/-! ## Creating and writing a file -/

/-- The region with a file at `p`, open as `fd` and under no other name. -/
structure Writing (s : Site) (T : TreeMap)
    (p : Loc) (fd : Fd) (w : World) : Prop extends Holds s T w where
  named : w.fs.RefersTo (s.loc ++ p) fd
  unique : ∀ q, w.fs.RefersTo q fd → q = s.loc ++ p

theorem Writing.quiet (h : Writing s T p fd w) (hq : Quiet s w w') : Writing s T p fd w' where
  toHolds := h.toHolds.quiet hq
  named := hq.refersTo.mpr h.named
  unique := by
    intro q href
    have hnamed := hq.refersTo.mpr h.named
    obtain ⟨rel, rfl⟩ := hq.closed h.closed p q fd hnamed href
    exact h.unique _ (hq.refersTo.mp href)

theorem Holds.confined_addFile (h : Holds s T w) (hdir : T.isDir names) {owner : Nat}
    (hv : w.fs.Vacant (s.loc ++ (names ++ [c]))) :
    Confined s.loc w (w.setFs (w.fs.addFile (s.loc ++ (names ++ [c])) perm owner hv)) where
  grows := by
    refine ⟨fun q m hq => ?_, rfl⟩
    have hne : q ≠ s.loc ++ (names ++ [c]) := by
      rintro rfl
      rw [hv.free] at hq
      cases hq
    simp [hne, hq]
  created := by
    intro q hfree hq
    by_cases he : q = s.loc ++ (names ++ [c])
    · exact ⟨names, c, he, fun ns hns => h.isDir_front hdir hns⟩
    · simp [he, hfree] at hq
  linked := by
    intro q i hfree ⟨m, hm, hk⟩ hlt
    by_cases he : q = s.loc ++ (names ++ [c])
    · simp only [World.setFs_fs, FS.addFile_node, he, if_true, Option.some.injEq] at hm
      subst hm
      cases hk
      exact absurd hlt (Nat.lt_irrefl _)
    · simp [he, hfree] at hm
  written := by
    intro i hlt hne
    exact absurd (by simp [Nat.ne_of_lt hlt]) hne
  nextIno := by simp
  locks := rfl
  umask := rfl

theorem Holds.addFile (h : Holds s T w) (hdir : T.isDir names) {owner : Nat}
    {hv : w.fs.Vacant (s.loc ++ (names ++ [c]))} :
    Writing s (T.insert (names ++ [c]) (.file perm [])) (names ++ [c])
      w.fs.nextIno (w.setFs (w.fs.addFile (s.loc ++ (names ++ [c])) perm owner hv)) := by
  have hfresh : ∀ q, ¬ w.fs.RefersTo q w.fs.nextIno := fun q href => Nat.lt_irrefl _ href.lt
  -- an old name keeps its inode, the new name has the new one
  have hold : ∀ q i, (w.setFs (w.fs.addFile (s.loc ++ (names ++ [c])) perm owner hv)).fs.RefersTo
      q i →
      (q = s.loc ++ (names ++ [c]) ∧ i = w.fs.nextIno) ∨ w.fs.RefersTo q i := by
    intro q i ⟨m, hm, hk⟩
    by_cases hq : q = s.loc ++ (names ++ [c])
    · simp only [World.setFs_fs, FS.addFile_node, hq, if_true, Option.some.injEq] at hm
      subst hm
      cases hk
      exact .inl ⟨hq, rfl⟩
    · exact .inr ⟨m, by simpa [hq] using hm, hk⟩
  refine ⟨⟨h.leads.grows (h.confined_addFile hdir _).grows, ?_, ?_, h.umask_eq⟩, ?_, ?_⟩
  · intro rel
    by_cases he : rel = names ++ [c]
    · subst he
      simp [FS.view, FS.content]
    · have hne : s.loc ++ rel ≠ s.loc ++ (names ++ [c]) := fun hc => he (List.append_cancel_left hc)
      rw [TreeMap.insert_other he, ← h.view rel]
      simp only [FS.view, World.setFs_fs, FS.addFile_node, hne, if_false]
      refine Option.map_congr fun n hn => FS.content_congr fun i hk => ?_
      have hlt : i ≠ w.fs.nextIno := Nat.ne_of_lt (w.fs.ino_lt _ n i hn hk)
      simp [hlt]
  · intro rel q i hrel hq
    rcases hold q i hq with ⟨hqe, _⟩ | hqi
    · exact ⟨names ++ [c], hqe.symm⟩
    · rcases hold _ i hrel with ⟨_, rfl⟩ | hreli
      · exact absurd hqi (hfresh q)
      · exact h.closed rel q i hreli hqi
  · refine ⟨⟨.file w.fs.nextIno, owner⟩, ?_, rfl⟩
    simp
  · intro q hq
    rcases hold q _ hq with ⟨hqe, _⟩ | hqi
    · exact hqe
    · exact absurd hqi (hfresh q)

theorem Writing.ne_nil (h : Writing s T p fd w) : p ≠ [] := by
  rintro rfl
  obtain ⟨n, hn, hk⟩ := h.named
  rw [List.append_nil] at hn
  obtain ⟨n', hn', hd⟩ := FS.isDir_iff.mp h.leads.isDir
  rw [hn] at hn'
  cases hn'
  simp [Node.isDir, hk] at hd

theorem Writing.confined_setData (h : Writing s T p fd w) (data : Bytes) :
    Confined s.loc w (w.setFs (w.fs.setData fd data)) where
  grows := ⟨fun _ _ hq => hq, rfl⟩
  created _ hfree hq := absurd hfree hq
  linked q i hfree := by
    rintro ⟨m, hm, _⟩
    simp [hfree] at hm
  written := by
    intro i _ hne q hq
    by_cases hi : i = fd
    · subst hi
      exact ⟨p, h.ne_nil, h.unique q hq⟩
    · simp [hi] at hne
  nextIno := Nat.le_refl _
  locks := rfl
  umask := rfl

theorem Writing.setData (h : Writing s T p fd w) {old : Bytes} (hp : T p = some (.file perm old))
    (data : Bytes) :
    Writing s (T.insert p (.file perm (old ++ data))) p fd
      (w.setFs (w.fs.setData fd ((w.fs.inode fd).data ++ data))) := by
  obtain ⟨n, hn, hk⟩ := h.named
  have hinode : (w.fs.inode fd).perm = perm ∧ (w.fs.inode fd).data = old := by
    have hv := h.view p
    rw [hp, FS.view, hn] at hv
    simpa [FS.content, hk] using hv
  refine ⟨⟨h.leads.grows (h.confined_setData _).grows, ?_, h.closed, h.umask_eq⟩,
    h.named, h.unique⟩
  intro rel
  by_cases he : rel = p
  · subst he
    simp [FS.view, hn, FS.content, hk, hinode]
  · rw [TreeMap.insert_other he, ← h.view rel]
    simp only [FS.view, World.setFs_fs, FS.setData_node]
    refine Option.map_congr fun m hm => FS.content_congr fun i hmk => ?_
    have hne : i ≠ fd := by
      rintro rfl
      exact he (List.append_cancel_left (h.unique _ ⟨m, hm, hmk⟩))
    simp [hne]

end Region

end BuilderShim.Posix
