/-
  Fileutils/Layout.lean --- which archives unpack, and to what.

  `extract` says what one entry after the other does to the destination.  Here the
  same is said of the list as a whole, without a tree that grows on the way: an
  entry fits after those before it (`Fits`), and what is at a location in the end
  (`Placed`) is read off the entries.
-/
import BuilderShim.Fileutils.Extract

set_option autoImplicit false

namespace BuilderShim.Fileutils

open BuilderShim.Filepath
open BuilderShim.Posix

/-! ## What the entries say -/

/-- The elements of the entry's cleaned name. -/
def TarEntry.path (hdr : TarEntry) : Loc := split (clean hdr.name)

/-- The elements of the cleaned name of what a hard link is to. -/
def TarEntry.target (hdr : TarEntry) : Loc := split (clean hdr.linkname)

/-- `tarTarget` lets the name through. -/
def Passes (dest name : Bytes) : Prop := ∃ target, tarTarget dest name = .ok target

/-- A proper ancestor, below the destination. -/
def Above (q p : Loc) : Prop := q ≠ [] ∧ q <+: p ∧ q ≠ p

/-- The entry is, or needs, a directory at `q`. -/
def TarEntry.Needs (hdr : TarEntry) (q : Loc) : Prop :=
  (hdr.typeflag = .dir ∧ hdr.path = q) ∨ Above q hdr.path ∨
    (hdr.typeflag = .link ∧ Above q hdr.target)

/-- The entries make a directory at `q`. -/
def Directory (entries : List TarEntry) (q : Loc) : Prop := ∃ hdr ∈ entries, hdr.Needs q

/-- An entry that is not a directory is at `q`. -/
def Obstacle (entries : List TarEntry) (q : Loc) : Prop :=
  ∃ hdr ∈ entries, hdr.typeflag ≠ .dir ∧ hdr.path = q

/-- A regular file is at `q`, under its first name or another. -/
def Regular (entries : List TarEntry) (q : Loc) : Prop :=
  ∃ hdr ∈ entries, (hdr.typeflag = .reg ∨ hdr.typeflag = .link) ∧ hdr.path = q

/-- The entry can be unpacked after the earlier ones. -/
structure Fits (dest : Bytes) (earlier : List TarEntry) (hdr : TarEntry) : Prop where
  name : Passes dest hdr.name
  linkname : hdr.typeflag = .link → Passes dest hdr.linkname
  typeflag : hdr.typeflag ∈ [TypeFlag.dir, .reg, .symlink, .link]
  /-- What is not a directory needs a free place. -/
  free : hdr.typeflag ≠ .dir → ¬ Obstacle earlier hdr.path ∧ ¬ Directory earlier hdr.path
  /-- A directory may be there already. -/
  directory : hdr.typeflag = .dir → ¬ Obstacle earlier hdr.path
  ancestors : ∀ q, Above q hdr.path → ¬ Obstacle earlier q
  target : hdr.typeflag = .link → Regular earlier hdr.target

/-- Every entry fits after those before it. -/
def Accepted (dest : Bytes) (entries : List TarEntry) : Prop :=
  ∀ earlier hdr later, entries = earlier ++ hdr :: later → Fits dest earlier hdr

/-- A symlink has something it leads to. -/
def TarEntry.Leads (hdr : TarEntry) : Prop := hdr.typeflag = .symlink → hdr.linkname ≠ []

/-- What the entries put at a location. -/
inductive Placed (umask : Nat) (entries : List TarEntry) : Loc → Content → Prop
  | dir {q : Loc} (h : Directory entries q) :
      Placed umask entries q (.dir (maskPerm umask 0o755))
  | file {hdr : TarEntry} (hmem : hdr ∈ entries) (ht : hdr.typeflag = .reg) :
      Placed umask entries hdr.path
        (.file (maskPerm umask (hdr.mode &&& 0o777)) hdr.body.flatten)
  | symlink {hdr : TarEntry} (hmem : hdr ∈ entries) (ht : hdr.typeflag = .symlink) :
      Placed umask entries hdr.path (.symlink hdr.linkname)
  | link {hdr : TarEntry} {perm : Nat} {data : Bytes} (hmem : hdr ∈ entries)
      (ht : hdr.typeflag = .link) (h : Placed umask entries hdr.target (.file perm data)) :
      Placed umask entries hdr.path (.file perm data)

variable {q p done names : Loc} {umask : Nat} {T : TreeMap}

/-- More entries, more places taken. -/
theorem Placed.mono {entries entries' : List TarEntry} {c : Content} (hsub : entries ⊆ entries')
    (h : Placed umask entries q c) : Placed umask entries' q c := by
  induction h with
  | dir hdir =>
      obtain ⟨hdr, hmem, hneeds⟩ := hdir
      exact .dir ⟨hdr, hsub hmem, hneeds⟩
  | file hmem ht => exact .file (hsub hmem) ht
  | symlink hmem ht => exact .symlink (hsub hmem) ht
  | link hmem ht _ ih => exact .link (hsub hmem) ht ih

theorem passes_iff (dest name : Bytes) :
    Passes dest name ↔ entryPath name = some (split (clean name)) := by
  unfold Passes entryPath tarTarget
  by_cases hbad : clean name = dot ∨ isLocal (clean name) = false
  · simp [hbad]
  by_cases hres : clean name = dockerfileStaging ∨
      (dockerfileStaging ++ [slash]).isPrefixOf (clean name) = true ∨
      clean name = cacheCompletionMarker
  · simp only [if_neg hbad, if_pos hres]
    exact ⟨nofun, nofun⟩
  · simp only [if_neg hbad, if_neg hres]
    exact ⟨fun _ => trivial, fun _ => ⟨_, rfl⟩⟩

theorem entryPath_eq {name : Bytes} (h : entryPath name = some p) :
    p = split (clean name) := by
  unfold entryPath at h
  split at h
  · exact (Option.some.inj h).symm
  · cases h

theorem entryPath_none {dest name : Bytes} (h : ¬ Passes dest name) : entryPath name = none := by
  cases hp : entryPath name with
  | none => rfl
  | some p => exact absurd ((passes_iff dest _).mpr (entryPath_eq hp ▸ hp)) h

/-! ## One entry in a tree -/

/-- Something that is not a directory stands above `p`. -/
def Blocked (T : TreeMap) (p : Loc) : Prop :=
  ∃ q, Above q p ∧ ∃ c, T q = some c ∧ c.isDir = false

/-- The ancestors of `p` have been created where they were missing. -/
structure ParentsAdded (umask : Nat) (p : Loc) (T T' : TreeMap) : Prop where
  new : ∀ q, Above q p → T q = none → T' q = some (.dir (maskPerm umask 0o755))
  old : ∀ q, ¬ Above q p ∨ T q ≠ none → T' q = T q

/-- The locations that `addParents` comes to. -/
def OnWay (done names q : Loc) : Prop := ∃ front, front ≠ [] ∧ front <+: names ∧ q = done ++ front

theorem onWay_cons {c : Bytes} :
    OnWay done (c :: names) q ↔ q = done ++ [c] ∨ OnWay (done ++ [c]) names q := by
  constructor
  · rintro ⟨front, hne, hpre, rfl⟩
    obtain ⟨x, rest, rfl⟩ := List.exists_cons_of_ne_nil hne
    obtain ⟨rfl, hrest⟩ := List.cons_prefix_cons.mp hpre
    by_cases hr : rest = []
    · exact .inl (by rw [hr])
    · exact .inr ⟨rest, hr, hrest, by simp⟩
  · rintro (rfl | ⟨front, hne, hpre, rfl⟩)
    · exact ⟨[c], by simp, List.cons_prefix_cons.mpr ⟨rfl, List.nil_prefix⟩, rfl⟩
    · exact ⟨c :: front, by simp, List.cons_prefix_cons.mpr ⟨rfl, hpre⟩, by simp⟩

theorem not_onWay_self : ¬ OnWay done names done := by
  rintro ⟨front, hne, -, heq⟩
  exact hne (List.append_right_eq_self.mp heq.symm)

theorem onWay_dropLast (hp : p ≠ []) : OnWay [] p.dropLast q ↔ Above q p := by
  obtain ⟨names, c, rfl⟩ := (List.eq_nil_or_concat' p).resolve_left hp
  simp only [List.dropLast_concat]
  constructor
  · rintro ⟨front, hne, hpre, rfl⟩
    refine ⟨hne, hpre.trans (List.prefix_append _ _), fun heq => ?_⟩
    have hlen := hpre.length_le
    rw [heq, List.length_append, List.length_singleton] at hlen
    omega
  · rintro ⟨hne, hpre, hneq⟩
    refine ⟨q, hne, ?_, rfl⟩
    rcases List.prefix_concat_iff.mp hpre with heq | hpre
    · exact absurd heq hneq
    · exact hpre

theorem addParents_some {T' : TreeMap} (h : addParents umask T done names = some T') (q : Loc) :
    (OnWay done names q → T q = none → T' q = some (.dir (maskPerm umask 0o755))) ∧
      (¬ OnWay done names q ∨ T q ≠ none → T' q = T q) := by
  induction names generalizing T done with
  | nil =>
      simp only [addParents, Option.some.injEq] at h
      subst h
      refine ⟨?_, fun _ => rfl⟩
      rintro ⟨front, hne, hpre, -⟩ _
      exact absurd (List.prefix_nil.mp hpre) hne
  | cons c names ih =>
      rw [onWay_cons]
      unfold addParents at h
      split at h
      · rename_i hnone
        obtain ⟨hnew, hold⟩ := ih h
        by_cases hq : q = done ++ [c]
        · subst hq
          have hT' := hold (.inl not_onWay_self)
          rw [TreeMap.insert_self] at hT'
          refine ⟨fun _ _ => hT', fun hor => ?_⟩
          rcases hor with hor | hor
          · exact absurd (.inl rfl) hor
          · exact absurd hnone hor
        · rw [TreeMap.insert_other hq] at hnew hold
          exact ⟨fun hon => hnew (hon.resolve_left hq),
            fun hor => hold (hor.imp_left fun hnot hon => hnot (.inr hon))⟩
      · rename_i perm hdir
        obtain ⟨hnew, hold⟩ := ih h
        refine ⟨fun hon hnone => ?_,
          fun hor => hold (hor.imp_left fun hnot hon => hnot (.inr hon))⟩
        rcases hon with rfl | hon
        · rw [hdir] at hnone
          cases hnone
        · exact hnew hon hnone
      · cases h

theorem addParents_none :
    addParents umask T done names = none ↔
      ∃ q, OnWay done names q ∧ ∃ c, T q = some c ∧ c.isDir = false := by
  induction names generalizing T done with
  | nil =>
      simp only [addParents, reduceCtorEq, false_iff]
      rintro ⟨q, ⟨front, hne, hpre, -⟩, -⟩
      exact hne (List.prefix_nil.mp hpre)
  | cons c names ih =>
      unfold addParents
      split
      · rename_i hnone
        rw [ih]
        constructor
        · rintro ⟨q, hon, c', hc', hdir⟩
          have hq : q ≠ done ++ [c] := fun heq => not_onWay_self (heq ▸ hon)
          rw [TreeMap.insert_other hq] at hc'
          exact ⟨q, onWay_cons.mpr (.inr hon), c', hc', hdir⟩
        · rintro ⟨q, hon, c', hc', hdir⟩
          have hq : q ≠ done ++ [c] := by
            rintro rfl
            rw [hnone] at hc'
            cases hc'
          exact ⟨q, (onWay_cons.mp hon).resolve_left hq, c',
            by rw [TreeMap.insert_other hq]; exact hc', hdir⟩
      · rename_i perm hisdir
        rw [ih]
        refine exists_congr fun q => ⟨fun h => ⟨onWay_cons.mpr (.inr h.1), h.2⟩, ?_⟩
        rintro ⟨hon, c', hc', hdir⟩
        refine ⟨(onWay_cons.mp hon).resolve_left ?_, c', hc', hdir⟩
        rintro rfl
        rw [hisdir] at hc'
        cases hc'
        cases hdir
      · rename_i c' hnotdir hc'
        refine ⟨fun _ => ⟨done ++ [c], onWay_cons.mpr (.inl rfl), c', hc', ?_⟩, fun _ => rfl⟩
        cases c' with
        | dir perm => exact (hnotdir perm rfl).elim
        | _ => rfl

/-- The parents of `p` are created, unless something is in the way. -/
theorem addParents_cases (umask : Nat) (T : TreeMap) (hp : p ≠ []) :
    (Blocked T p ∧ addParents umask T [] p.dropLast = none) ∨
      (¬ Blocked T p ∧ ∃ T', addParents umask T [] p.dropLast = some T' ∧
        ParentsAdded umask p T T') := by
  have hblocked : addParents umask T [] p.dropLast = none ↔ Blocked T p := by
    rw [addParents_none]
    exact exists_congr fun q => by rw [onWay_dropLast hp]
  cases h : addParents umask T [] p.dropLast with
  | none => exact .inl ⟨hblocked.mp h, rfl⟩
  | some T' =>
      refine .inr ⟨fun hb => ?_, T', rfl, ⟨fun q hq => ?_, fun q hq => ?_⟩⟩
      · rw [hblocked.mpr hb] at h
        cases h
      · exact (addParents_some h q).1 ((onWay_dropLast hp).mpr hq)
      · rw [← onWay_dropLast hp] at hq
        exact (addParents_some h q).2 hq

theorem not_above_self (p : Loc) : ¬ Above p p := fun h => h.2.2 rfl

/-- A new entry at `p`, with its parents. -/
structure Added (umask : Nat) (p : Loc) (c : Content) (T T' : TreeMap) : Prop where
  self : T' p = some c
  new : ∀ q, Above q p → T q = none → T' q = some (.dir (maskPerm umask 0o755))
  old : ∀ q, q ≠ p → ¬ Above q p ∨ T q ≠ none → T' q = T q

theorem addNew_cases (umask : Nat) (T : TreeMap) (hp : p ≠ []) (c : Content) :
    ((Blocked T p ∨ T p ≠ none) ∧ addNew umask T p c = none) ∨
      (¬ Blocked T p ∧ T p = none ∧ ∃ T', addNew umask T p c = some T' ∧
        Added umask p c T T') := by
  unfold addNew newPath
  rcases addParents_cases umask T hp with ⟨hb, hadd⟩ | ⟨hb, T', hadd, hpar⟩
  · exact .inl ⟨.inl hb, by rw [hadd]; rfl⟩
  · rw [hadd]
    have hself : T' p = T p := hpar.old p (.inl (not_above_self p))
    by_cases hfree : T p = none
    · refine .inr ⟨hb, hfree, T'.insert p c, ?_, ?_⟩
      · simp only [hself, hfree, if_true, Option.map_some]
      · refine ⟨TreeMap.insert_self _ _ _, fun q hq hnone => ?_, fun q hne hor => ?_⟩
        · rw [TreeMap.insert_other hq.2.2]
          exact hpar.new q hq hnone
        · rw [TreeMap.insert_other hne]
          exact hpar.old q hor
    · refine .inl ⟨.inr hfree, ?_⟩
      simp only [hself, if_neg hfree, Option.map_none]

theorem addDirectory_cases (umask : Nat) (T : TreeMap) (hp : p ≠ []) :
    ((Blocked T p ∨ ∃ c, T p = some c ∧ c.isDir = false) ∧ addDirectory umask T p = none) ∨
      (¬ Blocked T p ∧ ∃ c, c.isDir = true ∧
        (T p = some c ∨ T p = none ∧ c = .dir (maskPerm umask 0o755)) ∧
        ∃ T', addDirectory umask T p = some T' ∧ Added umask p c T T') := by
  unfold addDirectory
  rcases addParents_cases umask T hp with ⟨hb, hadd⟩ | ⟨hb, T', hadd, hpar⟩
  · exact .inl ⟨.inl hb, by rw [hadd]⟩
  · rw [hadd]
    have hself : T' p = T p := hpar.old p (.inl (not_above_self p))
    simp only [hself]
    cases hT : T p with
    | none =>
        refine .inr ⟨hb, _, rfl, .inr ⟨rfl, rfl⟩, _, rfl, ?_⟩
        refine ⟨TreeMap.insert_self _ _ _, fun q hq hnone => ?_, fun q hne hor => ?_⟩
        · rw [TreeMap.insert_other hq.2.2]
          exact hpar.new q hq hnone
        · rw [TreeMap.insert_other hne]
          exact hpar.old q hor
    | some c =>
        cases c with
        | dir perm =>
            exact .inr ⟨hb, .dir perm, rfl, .inl rfl, T', rfl, hself.trans hT, hpar.new,
              fun q _ hor => hpar.old q hor⟩
        | _ => exact .inl ⟨.inr ⟨_, rfl, rfl⟩, rfl⟩

/-! ## The tree of a list of entries -/

/-- The tree is what the entries say. -/
structure Built (umask : Nat) (entries : List TarEntry) (T : TreeMap) : Prop where
  root : T.isDir []
  named : ∀ hdr ∈ entries, hdr.path ≠ []
  typeflag : ∀ hdr ∈ entries, ∀ flag, hdr.typeflag ≠ .other flag
  placed : ∀ q, q ≠ [] → ∀ c, T q = some c ↔ Placed umask entries q c
  links : ∀ hdr ∈ entries, hdr.typeflag = .link → ∃ perm data,
    T hdr.target = some (.file perm data) ∧ T hdr.path = some (.file perm data)

section

variable {umask : Nat} {entries : List TarEntry} {T : TreeMap}

variable {c : Content} {q : Loc} {T' : TreeMap}

theorem placed_dir (h : Placed umask entries q c) (hc : c.isDir = true) :
    Directory entries q ∧ c = .dir (maskPerm umask 0o755) := by
  cases h with
  | dir hdir => exact ⟨hdir, rfl⟩
  | _ => cases hc

theorem placed_obstacle (h : Placed umask entries q c) (hc : c.isDir = false) :
    Obstacle entries q := by
  cases h with
  | dir _ => cases hc
  | file hmem ht | symlink hmem ht | link hmem ht _ => exact ⟨_, hmem, by simp [ht], rfl⟩

namespace Built

variable (hB : Built umask entries T)
include hB

variable {q : Loc}

theorem directory_iff (hq : q ≠ []) :
    T q = some (.dir (maskPerm umask 0o755)) ↔ Directory entries q := by
  rw [hB.placed q hq]
  exact ⟨fun h => (placed_dir h rfl).1, .dir⟩

theorem obstacle_iff (hq : q ≠ []) :
    (∃ c, T q = some c ∧ c.isDir = false) ↔ Obstacle entries q := by
  constructor
  · rintro ⟨c, hc, hdir⟩
    exact placed_obstacle ((hB.placed q hq c).mp hc) hdir
  · rintro ⟨hdr, hmem, hne, rfl⟩
    cases ht : hdr.typeflag with
    | dir => exact absurd ht hne
    | reg => exact ⟨_, (hB.placed _ hq _).mpr (.file hmem ht), rfl⟩
    | symlink => exact ⟨_, (hB.placed _ hq _).mpr (.symlink hmem ht), rfl⟩
    | link =>
        obtain ⟨perm, data, -, hself⟩ := hB.links hdr hmem ht
        exact ⟨_, hself, rfl⟩
    | other flag => exact absurd ht (hB.typeflag hdr hmem flag)

theorem none_iff (hq : q ≠ []) :
    T q = none ↔ ¬ Obstacle entries q ∧ ¬ Directory entries q := by
  rw [← hB.obstacle_iff hq, ← hB.directory_iff hq]
  constructor
  · intro hnone
    simp [hnone]
  · rintro ⟨hobs, hdir⟩
    cases hT : T q with
    | none => rfl
    | some c =>
        cases hc : c.isDir with
        | false => exact absurd ⟨c, hT, hc⟩ hobs
        | true =>
            rw [(placed_dir ((hB.placed q hq c).mp hT) hc).2] at hT
            exact absurd hT hdir

theorem regular_iff (hq : q ≠ []) :
    (∃ perm data, T q = some (.file perm data)) ↔ Regular entries q := by
  constructor
  · rintro ⟨perm, data, hT⟩
    have h := (hB.placed q hq _).mp hT
    cases h with
    | file hmem ht => exact ⟨_, hmem, .inl ht, rfl⟩
    | link hmem ht _ => exact ⟨_, hmem, .inr ht, rfl⟩
  · rintro ⟨hdr, hmem, ht | ht, rfl⟩
    · exact ⟨_, _, (hB.placed _ hq _).mpr (.file hmem ht)⟩
    · obtain ⟨perm, data, -, hself⟩ := hB.links hdr hmem ht
      exact ⟨perm, data, hself⟩

theorem blocked_iff {p : Loc} : Blocked T p ↔ ∃ q, Above q p ∧ Obstacle entries q := by
  refine exists_congr fun q => and_congr_right fun hq => ?_
  exact hB.obstacle_iff hq.1

/-- What is above a regular file is a directory. -/
theorem above_regular {p : Loc} {perm : Nat} {data : Bytes} (hp : p ≠ [])
    (hT : T p = some (.file perm data)) (hq : Above q p) :
    T q = some (.dir (maskPerm umask 0o755)) := by
  obtain ⟨hdr, hmem, -, rfl⟩ := (hB.regular_iff hp).mp ⟨perm, data, hT⟩
  exact (hB.directory_iff hq.1).mpr ⟨hdr, hmem, .inr (.inl hq)⟩

/-- A hard link needs no new directory above what it is to. -/
theorem addLink_regular {old : Loc} (hold : old ≠ []) {perm : Nat} {data : Bytes}
    (hT : T old = some (.file perm data)) (p : Loc) :
    addLink umask T old p = addNew umask T p (.file perm data) := by
  unfold addLink
  rcases addParents_cases umask T hold with ⟨⟨q, hq, c, hc, hdir⟩, -⟩ | ⟨-, T', hadd, hpar⟩
  · rw [hB.above_regular hold hT hq] at hc
    cases hc
    cases hdir
  · have heq : T' = T := by
      funext q
      refine hpar.old q ?_
      by_cases hq : Above q old
      · exact .inr (by simp [hB.above_regular hold hT hq])
      · exact .inl hq
    rw [heq] at hadd
    simp only [hadd, hT]

omit hB in
theorem addLink_other {old : Loc} (hold : old ≠ [])
    (hT : ∀ perm data, T old ≠ some (.file perm data)) (p : Loc) :
    addLink umask T old p = none := by
  unfold addLink
  rcases addParents_cases umask T hold with ⟨-, hadd⟩ | ⟨-, T', hadd, hpar⟩
  · simp only [hadd]
  · rw [hadd]
    have hself : T' old = T old := hpar.old old (.inl (not_above_self old))
    simp only [hself]

end Built

/-- What the entry puts into the tree, where there is room for it. -/
def TarEntry.Puts (hdr : TarEntry) (umask : Nat) (T : TreeMap) (c : Content) : Prop :=
  match hdr.typeflag with
  | .dir => c = .dir (maskPerm umask 0o755)
  | .reg => c = .file (maskPerm umask (hdr.mode &&& 0o777)) hdr.body.flatten
  | .symlink => c = .symlink hdr.linkname
  | .link => hdr.target ≠ [] ∧ ∃ perm data, T hdr.target = some (.file perm data) ∧
      c = .file perm data
  | .other _ => False

theorem Added.grows {p : Loc} (h : Added umask p c T T') (hself : T p = some c ∨ T p = none) :
    TreeGrows T T' := by
  intro q c' hq
  by_cases hqp : q = p
  · subst hqp
    rcases hself with hself | hself
    · rw [← hq, hself]
      exact h.self
    · rw [hself] at hq
      cases hq
  · rw [h.old q hqp (.inr (by simp [hq]))]
    exact hq

/-- The entry's own directories are there. -/
theorem Built.needs {hdr : TarEntry} (hB : Built umask entries T) (hputs : hdr.Puts umask T c)
    (hfree : ¬ Blocked T hdr.path) (hadd : Added umask hdr.path c T T') (hgrows : TreeGrows T T')
    (hq : q ≠ []) (h : hdr.Needs q) : T' q = some (.dir (maskPerm umask 0o755)) := by
  rcases h with ⟨ht, rfl⟩ | habove | ⟨ht, habove⟩
  · simp only [TarEntry.Puts, ht] at hputs
    rw [hadd.self, hputs]
  · cases hT : T q with
    | none => exact hadd.new q habove hT
    | some c' =>
        have hdir : c'.isDir = true := by
          cases hc : c'.isDir with
          | true => rfl
          | false => exact absurd ⟨q, habove, c', hT, hc⟩ hfree
        rw [(placed_dir ((hB.placed q hq c').mp hT) hdir).2] at hT
        exact hgrows q _ hT
  · simp only [TarEntry.Puts, ht] at hputs
    obtain ⟨htarget, perm, data, hT, -⟩ := hputs
    exact hgrows q _ (hB.above_regular htarget hT habove)

/-- What the entry puts at its path is what the list with it puts there. -/
theorem Built.puts_placed {hdr : TarEntry} (hB : Built umask entries T)
    (hputs : hdr.Puts umask T c) : Placed umask (entries ++ [hdr]) hdr.path c := by
  have hmem : hdr ∈ entries ++ [hdr] := by simp
  unfold TarEntry.Puts at hputs
  split at hputs
  · rename_i ht
    subst hputs
    exact .dir ⟨hdr, hmem, .inl ⟨ht, rfl⟩⟩
  · rename_i ht
    subst hputs
    exact .file hmem ht
  · rename_i ht
    subst hputs
    exact .symlink hmem ht
  · rename_i ht
    obtain ⟨htarget, perm, data, hT, rfl⟩ := hputs
    have hold := (hB.placed _ htarget _).mp hT
    exact .link hmem ht (hold.mono (List.subset_append_left _ _))
  · exact hputs.elim

/-- The hard links, with one more entry. -/
theorem Built.links_extend {hdr : TarEntry} (hB : Built umask entries T)
    (hputs : hdr.Puts umask T c) (hadd : Added umask hdr.path c T T') (hgrows : TreeGrows T T') :
    ∀ e ∈ entries ++ [hdr], e.typeflag = .link → ∃ perm data,
      T' e.target = some (.file perm data) ∧ T' e.path = some (.file perm data) := by
  intro e he ht
  rcases List.mem_append.mp he with he | he
  · obtain ⟨perm, data, htarget, hpath⟩ := hB.links e he ht
    exact ⟨perm, data, hgrows _ _ htarget, hgrows _ _ hpath⟩
  · cases List.mem_singleton.mp he
    simp only [TarEntry.Puts, ht] at hputs
    obtain ⟨-, perm, data, hT, rfl⟩ := hputs
    exact ⟨perm, data, hgrows _ _ hT, hadd.self⟩

/-- What the list with the entry puts at a path is there. -/
theorem Built.placed_extend {hdr : TarEntry} {c' : Content} (hB : Built umask entries T)
    (hputs : hdr.Puts umask T c) (hfree : ¬ Blocked T hdr.path)
    (hadd : Added umask hdr.path c T T') (hgrows : TreeGrows T T')
    (h : Placed umask (entries ++ [hdr]) q c') (hq : q ≠ []) : T' q = some c' := by
  induction h with
  | dir hdir =>
      obtain ⟨e, he, hneeds⟩ := hdir
      rcases List.mem_append.mp he with he | he
      · exact hgrows _ _ ((hB.directory_iff hq).mpr ⟨e, he, hneeds⟩)
      · cases List.mem_singleton.mp he
        exact hB.needs hputs hfree hadd hgrows hq hneeds
  | @file e he ht =>
      rcases List.mem_append.mp he with he | he
      · exact hgrows _ _ ((hB.placed _ hq _).mpr (.file he ht))
      · cases List.mem_singleton.mp he
        simp only [TarEntry.Puts, ht] at hputs
        rw [hadd.self, hputs]
  | @symlink e he ht =>
      rcases List.mem_append.mp he with he | he
      · exact hgrows _ _ ((hB.placed _ hq _).mpr (.symlink he ht))
      · cases List.mem_singleton.mp he
        simp only [TarEntry.Puts, ht] at hputs
        rw [hadd.self, hputs]
  | @link e perm data he ht _ ih =>
      obtain ⟨perm', data', htarget, hpath⟩ := hB.links_extend hputs hadd hgrows e he ht
      have hne : e.target ≠ [] := by
        intro hnil
        obtain ⟨perm'', hroot⟩ := hgrows.isDir hB.root
        rw [hnil, hroot] at htarget
        cases htarget
      rw [ih hne] at htarget
      rw [hpath, ← htarget]

/-- One more entry. -/
theorem Built.extend {hdr : TarEntry} (hB : Built umask entries T) (hp : hdr.path ≠ [])
    (hputs : hdr.Puts umask T c) (hfree : ¬ Blocked T hdr.path)
    (hself : T hdr.path = some c ∨ T hdr.path = none) (hadd : Added umask hdr.path c T T') :
    Built umask (entries ++ [hdr]) T' := by
  have hgrows := hadd.grows hself
  refine ⟨hgrows.isDir hB.root, ?_, ?_, fun q hq c' => ⟨fun hT' => ?_, fun h => ?_⟩,
    hB.links_extend hputs hadd hgrows⟩
  · intro e he
    rcases List.mem_append.mp he with he | he
    · exact hB.named e he
    · cases List.mem_singleton.mp he
      exact hp
  · intro e he flag hflag
    rcases List.mem_append.mp he with he | he
    · exact hB.typeflag e he flag hflag
    · cases List.mem_singleton.mp he
      simp only [TarEntry.Puts, hflag] at hputs
  · -- where `c'` is from: the entry itself, a parent of it, or an earlier entry
    by_cases hqp : q = hdr.path
    · subst hqp
      rw [hadd.self] at hT'
      cases hT'
      exact hB.puts_placed hputs
    by_cases hnew : Above q hdr.path ∧ T q = none
    · rw [hadd.new q hnew.1 hnew.2] at hT'
      cases hT'
      exact .dir ⟨hdr, by simp, .inr (.inl hnew.1)⟩
    · have hold : ¬ Above q hdr.path ∨ T q ≠ none := by
        by_cases ha : Above q hdr.path
        · exact .inr fun hnone => hnew ⟨ha, hnone⟩
        · exact .inl ha
      rw [hadd.old q hqp hold] at hT'
      exact ((hB.placed q hq c').mp hT').mono (List.subset_append_left _ _)
  · exact hB.placed_extend hputs hfree hadd hgrows h hq

/-- The entry is unpacked if it fits, and refused if not. -/
def Decided (dest : Bytes) (umask : Nat) (entries : List TarEntry) (hdr : TarEntry)
    (o : Option TreeMap) : Prop :=
  ((Fits dest entries hdr ∧ hdr.Leads) ∧
      ∃ T', o = some T' ∧ Built umask (entries ++ [hdr]) T') ∨
    (¬ (Fits dest entries hdr ∧ hdr.Leads) ∧ o = none)

variable {dest : Bytes} {hdr : TarEntry}

/-- What is not a directory, once its contents are known. -/
theorem Built.addNew_decided (hB : Built umask entries T) (hpass : Passes dest hdr.name)
    (hputs : hdr.Puts umask T c) (hne : hdr.typeflag ≠ .dir) (hleads : hdr.Leads)
    (hlink : hdr.typeflag = .link → Passes dest hdr.linkname ∧ Regular entries hdr.target) :
    Decided dest umask entries hdr (addNew umask T hdr.path c) := by
  have hp : hdr.path ≠ [] := (entryPath_some ((passes_iff dest _).mp hpass)).1
  rcases addNew_cases umask T hp c with ⟨hbad, hadd⟩ | ⟨hfree, hnone, T', hadd, hadded⟩
  · refine .inr ⟨fun ⟨hfits, _⟩ => ?_, hadd⟩
    rcases hbad with hbad | hbad
    · obtain ⟨q, hq, hobs⟩ := hB.blocked_iff.mp hbad
      exact hfits.ancestors q hq hobs
    · exact hbad ((hB.none_iff hp).mpr (hfits.free hne))
  · have htype : hdr.typeflag ∈ [TypeFlag.dir, .reg, .symlink, .link] := by
      unfold TarEntry.Puts at hputs
      split at hputs
      · simp [*]
      · simp [*]
      · simp [*]
      · simp [*]
      · exact hputs.elim
    refine .inl ⟨⟨⟨hpass, fun ht => (hlink ht).1, htype, fun _ => (hB.none_iff hp).mp hnone,
      fun ht => absurd ht hne, fun q hq hobs => hfree (hB.blocked_iff.mpr ⟨q, hq, hobs⟩),
      fun ht => (hlink ht).2⟩, hleads⟩, T', hadd, ?_⟩
    exact hB.extend hp hputs hfree (.inr hnone) hadded

theorem Built.addDirectory_decided (hB : Built umask entries T) (hpass : Passes dest hdr.name)
    (ht : hdr.typeflag = .dir) :
    Decided dest umask entries hdr (addDirectory umask T hdr.path) := by
  have hp : hdr.path ≠ [] := (entryPath_some ((passes_iff dest _).mp hpass)).1
  rcases addDirectory_cases umask T hp with ⟨hbad, hadd⟩ | ⟨hfree, c, hdir, hself, T', hadd, hadded⟩
  · refine .inr ⟨fun ⟨hfits, _⟩ => ?_, hadd⟩
    rcases hbad with hbad | hbad
    · obtain ⟨q, hq, hobs⟩ := hB.blocked_iff.mp hbad
      exact hfits.ancestors q hq hobs
    · exact hfits.directory ht ((hB.obstacle_iff hp).mp hbad)
  · have hc : c = .dir (maskPerm umask 0o755) := by
      rcases hself with hself | ⟨-, hc⟩
      · exact (placed_dir ((hB.placed _ hp c).mp hself) hdir).2
      · exact hc
    have hnotfile : ¬ Obstacle entries hdr.path := by
      rw [← hB.obstacle_iff hp]
      rintro ⟨c', hc', hdir'⟩
      rcases hself with hself | ⟨hnone, -⟩
      · rw [hself] at hc'
        cases hc'
        rw [hdir] at hdir'
        cases hdir'
      · rw [hnone] at hc'
        cases hc'
    have hlink : ∀ {P : Prop}, hdr.typeflag = .link → P := fun h => by
      rw [ht] at h
      cases h
    refine .inl ⟨⟨⟨hpass, hlink, by simp [ht], fun h => absurd ht h, fun _ => hnotfile,
      fun q hq hobs => hfree (hB.blocked_iff.mpr ⟨q, hq, hobs⟩), hlink⟩,
      fun h => by rw [ht] at h; cases h⟩, T', hadd, ?_⟩
    exact hB.extend hp (by simp only [TarEntry.Puts, ht]; exact hc) hfree
      (hself.imp_right And.left) hadded

theorem Built.addLink_decided (hB : Built umask entries T) (hpass : Passes dest hdr.name)
    (ht : hdr.typeflag = .link) (htarget : Passes dest hdr.linkname) :
    Decided dest umask entries hdr (addLink umask T hdr.target hdr.path) := by
  have hne : hdr.target ≠ [] := (entryPath_some ((passes_iff dest _).mp htarget)).1
  by_cases hreg : Regular entries hdr.target
  · obtain ⟨perm, data, hT⟩ := (hB.regular_iff hne).mpr hreg
    rw [hB.addLink_regular hne hT]
    refine hB.addNew_decided hpass ?_ (by simp [ht]) (fun h => by rw [ht] at h; cases h)
      fun _ => ⟨htarget, hreg⟩
    simp only [TarEntry.Puts, ht]
    exact ⟨hne, perm, data, hT, rfl⟩
  · refine .inr ⟨fun ⟨hfits, _⟩ => hreg (hfits.target ht), ?_⟩
    exact Built.addLink_other hne
      (fun perm data hT => hreg ((hB.regular_iff hne).mp ⟨perm, data, hT⟩)) _

theorem Built.extractEntry_decided (hB : Built umask entries T) (dest : Bytes) (hdr : TarEntry)
    (hbody : hdr.bodyErr = none) :
    Decided dest umask entries hdr (extractEntry umask T hdr) := by
  by_cases hpass : Passes dest hdr.name
  swap
  · refine .inr ⟨fun h => hpass h.1.name, ?_⟩
    simp only [extractEntry, entryPath_none hpass]
  have hpath : entryPath hdr.name = some hdr.path := (passes_iff dest _).mp hpass
  unfold extractEntry
  simp only [hpath]
  cases ht : hdr.typeflag with
  | dir => exact hB.addDirectory_decided hpass ht
  | reg =>
      simp only [hbody, if_true]
      exact hB.addNew_decided hpass (by simp only [TarEntry.Puts, ht]) (by simp [ht])
        (fun h => by rw [ht] at h; cases h) fun h => by rw [ht] at h; cases h
  | symlink =>
      by_cases hlink : hdr.linkname = []
      · simp only [if_pos hlink]
        exact .inr ⟨fun ⟨_, hleads⟩ => hleads ht hlink, rfl⟩
      · simp only [if_neg hlink]
        exact hB.addNew_decided hpass (by simp only [TarEntry.Puts, ht]) (by simp [ht])
          (fun _ => hlink) fun h => by rw [ht] at h; cases h
  | link =>
      by_cases htarget : Passes dest hdr.linkname
      · have hlink : entryPath hdr.linkname = some hdr.target := (passes_iff dest _).mp htarget
        simp only [hlink]
        exact hB.addLink_decided hpass ht htarget
      · refine .inr ⟨fun ⟨hfits, _⟩ => htarget (hfits.linkname ht), ?_⟩
        simp only [entryPath_none htarget]
  | other flag =>
      refine .inr ⟨fun ⟨hfits, _⟩ => ?_, rfl⟩
      have htype := hfits.typeflag
      simp [ht] at htype

theorem accepted_cons_iff {earlier : List TarEntry} {rest : List TarEntry} :
    (∀ front hdr' later, hdr :: rest = front ++ hdr' :: later → Fits dest (earlier ++ front) hdr') ↔
      Fits dest earlier hdr ∧ ∀ front hdr' later, rest = front ++ hdr' :: later →
        Fits dest (earlier ++ [hdr] ++ front) hdr' := by
  constructor
  · intro h
    refine ⟨by simpa using h [] hdr rest rfl, fun front hdr' later hrest => ?_⟩
    have := h (hdr :: front) hdr' later (by rw [hrest]; rfl)
    simpa using this
  · rintro ⟨hfits, hrest⟩ front hdr' later heq
    cases front with
    | nil =>
        obtain ⟨rfl, rfl⟩ := List.cons.inj heq
        simpa using hfits
    | cons x front =>
        obtain ⟨rfl, hrest'⟩ := List.cons.inj heq
        simpa using hrest front hdr' later hrest'

/-- What the rest of the list comes to. -/
theorem Built.extractEntries_decided (hB : Built umask entries T) (dest : Bytes)
    (rest : List TarEntry) (hbody : ∀ hdr ∈ rest, hdr.bodyErr = none) :
    (extractEntries umask T rest ≠ none ↔
      (∀ front hdr later, rest = front ++ hdr :: later → Fits dest (entries ++ front) hdr) ∧
        ∀ hdr ∈ rest, hdr.Leads) ∧
    ∀ T', extractEntries umask T rest = some T' → Built umask (entries ++ rest) T' := by
  induction rest generalizing entries T with
  | nil =>
      refine ⟨⟨fun _ => ⟨fun front hdr later h => ?_, List.forall_mem_nil _⟩, fun _ h => ?_⟩,
        fun T' h => ?_⟩
      · simp at h
      · cases h
      · cases h
        simpa using hB
  | cons hdr rest ih =>
      rw [accepted_cons_iff, List.forall_mem_cons]
      unfold extractEntries
      rcases hB.extractEntry_decided dest hdr (hbody hdr List.mem_cons_self) with
        ⟨⟨hfits, hleads⟩, T₁, hT₁, hB₁⟩ | ⟨hnot, hnone⟩
      · obtain ⟨hiff, hbuilt⟩ := ih hB₁ fun e he => hbody e (List.mem_cons_of_mem _ he)
        simp only [hT₁]
        rw [hiff]
        refine ⟨⟨fun h => ⟨⟨hfits, h.1⟩, hleads, h.2⟩, fun h => ⟨h.1.2, h.2.2⟩⟩, fun T' hT' => ?_⟩
        simpa using hbuilt T' hT'
      · simp only [hnone]
        refine ⟨⟨fun h => absurd rfl h, fun h => absurd ⟨h.1.1, h.2.1⟩ hnot⟩, fun T' hT' => ?_⟩
        cases hT'

end

/-- The entries unpack into an empty destination if and only if they are accepted, and then
to what they say. -/
theorem extractEntries_empty (umask : Nat) (hroot : T.isDir []) (hempty : ∀ q, q ≠ [] → T q = none)
    (dest : Bytes) (entries : List TarEntry) (hbody : ∀ hdr ∈ entries, hdr.bodyErr = none) :
    (extractEntries umask T entries ≠ none ↔
      Accepted dest entries ∧ ∀ hdr ∈ entries, hdr.Leads) ∧
    ∀ T', extractEntries umask T entries = some T' → ∀ q, q ≠ [] → ∀ c,
      T' q = some c ↔ Placed umask entries q c := by
  have hB : Built umask [] T := by
    refine ⟨hroot, List.forall_mem_nil _, List.forall_mem_nil _, fun q hq c => ?_,
      List.forall_mem_nil _⟩
    rw [hempty q hq]
    refine ⟨nofun, fun h => ?_⟩
    cases h with
    | dir hdir =>
        obtain ⟨hdr, hmem, -⟩ := hdir
        cases hmem
    | file hmem _ | symlink hmem _ | link hmem _ _ => cases hmem
  obtain ⟨hiff, hbuilt⟩ := hB.extractEntries_decided dest entries hbody
  exact ⟨hiff, fun T' hT' => (hbuilt T' hT').placed⟩

/-! ## The order of the entries -/

/-- Neither entry, if it is not a directory, stands where the other one is or above it. -/
def Compatible (a b : TarEntry) : Prop :=
  (a.typeflag ≠ .dir → a.path ≠ b.path ∧ ¬ Above a.path b.path) ∧
    (b.typeflag ≠ .dir → b.path ≠ a.path ∧ ¬ Above b.path a.path)

theorem Compatible.symm {a b : TarEntry} (h : Compatible a b) : Compatible b a := ⟨h.2, h.1⟩

/-- The entry by itself. -/
def Valid (dest : Bytes) (hdr : TarEntry) : Prop :=
  Passes dest hdr.name ∧ hdr.typeflag ∈ [TypeFlag.dir, .reg, .symlink, .link]

section

variable {dest : Bytes} {hdr : TarEntry}

/-- Without hard links an entry fits if it is compatible with each earlier one. -/
theorem fits_iff {earlier : List TarEntry} (hhdr : hdr.typeflag ≠ .link)
    (hearlier : ∀ e ∈ earlier, e.typeflag ≠ .link) :
    Fits dest earlier hdr ↔ Valid dest hdr ∧ ∀ e ∈ earlier, Compatible e hdr := by
  constructor
  · intro h
    have hnot : ∀ e ∈ earlier, e.typeflag ≠ .dir → e.path ≠ hdr.path := by
      intro e he hne heq
      by_cases ht : hdr.typeflag = .dir
      · exact h.directory ht ⟨e, he, hne, heq⟩
      · exact (h.free ht).1 ⟨e, he, hne, heq⟩
    refine ⟨⟨h.name, h.typeflag⟩, fun e he => ⟨fun hne => ⟨hnot e he hne, fun habove => ?_⟩,
      fun hne => ⟨fun heq => ?_, fun habove => ?_⟩⟩⟩
    · exact h.ancestors _ habove ⟨e, he, hne, rfl⟩
    · by_cases ht : e.typeflag = .dir
      · exact (h.free hne).2 ⟨e, he, .inl ⟨ht, heq.symm⟩⟩
      · exact hnot e he ht heq.symm
    · exact (h.free hne).2 ⟨e, he, .inr (.inl habove)⟩
  · rintro ⟨⟨hname, htype⟩, hall⟩
    refine ⟨hname, fun ht => absurd ht hhdr, htype, fun hne => ⟨?_, ?_⟩, fun _ => ?_, ?_,
      fun ht => absurd ht hhdr⟩
    · rintro ⟨e, he, hdir, heq⟩
      exact ((hall e he).1 hdir).1 heq
    · rintro ⟨e, he, ⟨-, heq⟩ | habove | ⟨hlink, -⟩⟩
      · exact ((hall e he).2 hne).1 heq.symm
      · exact ((hall e he).2 hne).2 habove
      · exact hearlier e he hlink
    · rintro ⟨e, he, hdir, heq⟩
      exact ((hall e he).1 hdir).1 heq
    · rintro q habove ⟨e, he, hdir, rfl⟩
      exact ((hall e he).1 hdir).2 habove

theorem fits_all_iff {earlier rest : List TarEntry}
    (hearlier : ∀ e ∈ earlier, e.typeflag ≠ .link) (hrest : ∀ e ∈ rest, e.typeflag ≠ .link) :
    (∀ front hdr later, rest = front ++ hdr :: later → Fits dest (earlier ++ front) hdr) ↔
      (∀ e ∈ rest, Valid dest e) ∧ rest.Pairwise Compatible ∧
        ∀ e ∈ earlier, ∀ hdr ∈ rest, Compatible e hdr := by
  induction rest generalizing earlier with
  | nil => simp
  | cons hdr rest ih =>
      have hhdr := hrest hdr List.mem_cons_self
      have hearlier' : ∀ e ∈ earlier ++ [hdr], e.typeflag ≠ .link := by
        intro e he
        rcases List.mem_append.mp he with he | he
        · exact hearlier e he
        · exact List.mem_singleton.mp he ▸ hhdr
      rw [accepted_cons_iff, fits_iff hhdr hearlier,
        ih hearlier' fun e he => hrest e (List.mem_cons_of_mem _ he)]
      simp only [List.forall_mem_cons, List.forall_mem_append, List.pairwise_cons]
      constructor
      · rintro ⟨⟨hv, hcomp⟩, hvs, hpair, hearly, hself, -⟩
        exact ⟨⟨hv, hvs⟩, ⟨hself, hpair⟩, fun e he => ⟨hcomp e he, hearly e he⟩⟩
      · rintro ⟨⟨hv, hvs⟩, ⟨hself, hpair⟩, hboth⟩
        exact ⟨⟨hv, fun e he => (hboth e he).1⟩, hvs, hpair, fun e he => (hboth e he).2, hself,
          List.forall_mem_nil _⟩

theorem accepted_iff {entries : List TarEntry} (hlinks : ∀ hdr ∈ entries, hdr.typeflag ≠ .link) :
    Accepted dest entries ↔ (∀ hdr ∈ entries, Valid dest hdr) ∧ entries.Pairwise Compatible := by
  refine (fits_all_iff (List.forall_mem_nil _) hlinks).trans ?_
  exact and_congr_right fun _ => and_iff_left (List.forall_mem_nil _)

/-- A list without hard links is accepted in every order or in none. -/
theorem accepted_perm {entries entries' : List TarEntry} (hperm : entries.Perm entries')
    (hlinks : ∀ hdr ∈ entries, hdr.typeflag ≠ .link) :
    Accepted dest entries ↔ Accepted dest entries' := by
  rw [accepted_iff hlinks, accepted_iff fun hdr hmem => hlinks hdr (hperm.mem_iff.mpr hmem)]
  refine and_congr (forall_congr' fun hdr => ?_) (hperm.pairwise_iff Compatible.symm)
  rw [hperm.mem_iff]

end

theorem placed_perm {entries entries' : List TarEntry} (hperm : entries.Perm entries')
    {c : Content} :
    Placed umask entries q c ↔ Placed umask entries' q c :=
  ⟨.mono hperm.subset, .mono hperm.symm.subset⟩

end BuilderShim.Fileutils
