/-
  Fileutils/Reserved.lean --- the names an archive must not use.

  `tarTarget` refuses the staging directory and everything below it, but of the
  completion marker only the name itself.  What follows is exactly which archives
  leave the two reserved names free.
-/
import BuilderShim.Fileutils.Contain

set_option autoImplicit false

namespace BuilderShim.Fileutils

open BuilderShim.Filepath
open BuilderShim.Foundation
open BuilderShim.Posix

/-- At or below one of the two reserved names at the top of the tree. -/
def Reserved (rel : Loc) : Prop :=
  [cacheCompletionMarker] <+: rel ∨ [dockerfileStaging] <+: rel

/-- The name, cleaned, is strictly below the completion marker. -/
def belowMarker (name : Bytes) : Bool :=
  (cacheCompletionMarker ++ [slash]).isPrefixOf (clean name)

/-! ## Names -/

theorem head_of_below {c : Bytes} {names : List Bytes} (hc : slash ∉ c)
    (hnames : ∀ x ∈ names, slash ∉ x) (h : c ++ [slash] <+: joinSlash names) :
    names.head? = some c ∧ names ≠ [c] := by
  obtain ⟨rest, hrest⟩ := h
  cases names with
  | nil => simp [joinSlash] at hrest
  | cons x xs =>
      have hsplit := split_joinSlash hnames (by simp)
      rw [← hrest, List.append_assoc, List.singleton_append, split_append_slash] at hsplit
      have hcs : split c = [c] := by
        have := split_joinSlash (by simpa using hc) (List.cons_ne_nil c [])
        simpa [joinSlash] using this
      rw [hcs, List.singleton_append] at hsplit
      injection hsplit with hx hxs
      subst hx
      refine ⟨rfl, ?_⟩
      rintro hnil
      injection hnil with _ hnil
      rw [hnil] at hxs
      exact List.splitOn_ne_nil slash rest hxs

theorem below_of_head {c : Bytes} {names : List Bytes} (h : names.head? = some c)
    (hne : names ≠ [c]) : c ++ [slash] <+: joinSlash names := by
  cases names with
  | nil => cases h
  | cons x xs =>
      simp only [List.head?_cons, Option.some.injEq] at h
      subst h
      have hxs : xs ≠ [] := fun hx => hne (by rw [hx])
      have := joinSlash_append (List.cons_ne_nil x []) hxs
      rw [List.singleton_append] at this
      rw [this]
      refine ⟨joinSlash xs, ?_⟩
      simp [joinSlash]

theorem reserved_iff {rel : Loc} :
    Reserved rel ↔ rel.head? = some cacheCompletionMarker ∨ rel.head? = some dockerfileStaging := by
  unfold Reserved
  cases rel with
  | nil => simp
  | cons c rest => simp [List.cons_prefix_cons, eq_comm]

theorem Reserved.of_prefix {q p : Loc} (h : Reserved q) (hqp : q <+: p) : Reserved p :=
  h.imp (fun hq => hq.trans hqp) fun hq => hq.trans hqp

/-- What is let through uses a reserved name exactly when it is below the marker. -/
theorem reserved_entryPath {name : Bytes} {p : List Bytes} (h : entryPath name = some p) :
    Reserved p ↔ belowMarker name = true := by
  obtain ⟨hne, hnames, hclean, hstage, hbelow, hmarker⟩ := entryPath_some h
  have hslash : ∀ c ∈ p, slash ∉ c := fun c hc => (hnames c hc).no_slash
  have hsingle : ∀ c : Bytes, clean name ≠ c → p ≠ [c] := by
    intro c hc hp
    exact hc (by rw [hclean, hp]; simp [joinSlash])
  unfold belowMarker
  rw [reserved_iff, List.isPrefixOf_iff_prefix]
  constructor
  · rintro (hm | hs)
    · rw [hclean]
      exact below_of_head hm (hsingle _ hmarker)
    · have := below_of_head hs (hsingle _ hstage)
      rw [← hclean, ← List.isPrefixOf_iff_prefix, hbelow] at this
      cases this
  · intro hpre
    rw [hclean] at hpre
    exact .inl (head_of_below (by decide) hslash hpre).1

/-! ## Trees -/

/-- No node at or below a reserved name. -/
def Free (T : TreeMap) : Prop := ∀ q, T q ≠ none → ¬ Reserved q

theorem not_reserved_nil : ¬ Reserved [] := by simp [Reserved]

theorem free_emptyTree (perm : Nat) : Free (emptyTree perm) := by
  intro q hq
  by_cases h : q = []
  · rw [h]
    exact not_reserved_nil
  · simp [emptyTree, h] at hq

variable {T T' : TreeMap} {hdr : TarEntry} {umask perm : Nat} {archive : Archive}

/-- An entry that is let through is there afterwards, and if its name is not below
the marker everything reserved stays free. -/
theorem extractEntry_free (h : extractEntry umask T hdr = some T') :
    (∃ p, entryPath hdr.name = some p ∧ T' p ≠ none) ∧
      (belowMarker hdr.name = false → Free T → Free T') := by
  unfold extractEntry at h
  split at h
  · cases h
  rename_i p hp
  have hne : p ≠ [] := (entryPath_some hp).1
  have hfree : belowMarker hdr.name = false → ¬ Reserved p := by
    intro hb hr
    rw [(reserved_entryPath hp).mp hr] at hb
    cases hb
  -- the entry and its parents are prefixes of an unreserved location
  have hkeep : (∀ q, T' q ≠ none → T q ≠ none ∨ (q ≠ [] ∧ q <+: p)) →
      belowMarker hdr.name = false → Free T → Free T' := by
    intro hnew hb hT q hq hr
    rcases hnew q hq with hold | ⟨_, hpre⟩
    · exact hT q hold hr
    · exact hfree hb (hr.of_prefix hpre)
  split at h
  · exact ⟨⟨p, hp, (addDirectory_new (q := []) hne h).1⟩,
      hkeep fun q => (addDirectory_new hne h).2⟩
  · split at h
    · exact ⟨⟨p, hp, (addNew_new (q := []) hne h).1⟩, hkeep fun q => (addNew_new hne h).2⟩
    · cases h
  · split at h
    · cases h
    · exact ⟨⟨p, hp, (addNew_new (q := []) hne h).1⟩, hkeep fun q => (addNew_new hne h).2⟩
  · split at h
    · cases h
    · rename_i old hold
      refine ⟨⟨p, hp, (addLink_new (q := []) hne h).2.1⟩, fun hb hT q hq hr => ?_⟩
      obtain ⟨hmem, _, hnew⟩ := addLink_new (q := q) hne h
      rcases hnew hq with hq' | ⟨_, hpre | hpre⟩
      · exact hT q hq' hr
      · exact hfree hb (hr.of_prefix hpre)
      · exact hT old hmem (hr.of_prefix hpre)
  · cases h

/-- An accepted list of entries keeps the reserved names free exactly when no name
in it is below the completion marker. -/
theorem extractEntries_free_iff {entries : List TarEntry} (hT : Free T)
    (h : extractEntries umask T entries = some T') :
    Free T' ↔ ∀ hdr ∈ entries, belowMarker hdr.name = false := by
  induction entries generalizing T with
  | nil =>
      simp only [extractEntries, Option.some.injEq] at h
      rw [← h]
      exact ⟨fun _ hdr hm => (List.not_mem_nil hm).elim, fun _ => hT⟩
  | cons hdr entries ih =>
      unfold extractEntries at h
      split at h
      · cases h
      rename_i T'' hT''
      obtain ⟨⟨p, hp, hmem⟩, hfree⟩ := extractEntry_free hT''
      cases hb : belowMarker hdr.name with
      | true =>
          -- the entry itself is reserved, and nothing takes it away again
          refine ⟨fun hF => ?_, fun hall => ?_⟩
          · obtain ⟨c, hc⟩ := Option.ne_none_iff_exists'.mp hmem
            exact absurd ((reserved_entryPath hp).mpr hb)
              (hF p (by rw [extractEntries_grows h p c hc]; simp))
          · rw [hall hdr List.mem_cons_self] at hb
            cases hb
      | false =>
          rw [ih (hfree hb hT) h, List.forall_mem_cons]
          exact ⟨fun hall => ⟨hb, hall⟩, fun hall => hall.2⟩

/-- Every accepted entry is in the tree. -/
theorem extractEntries_mem {entries : List TarEntry} (h : extractEntries umask T entries = some T')
    (hmem : hdr ∈ entries) :
    ∃ p, entryPath hdr.name = some p ∧ T' p ≠ none := by
  induction entries generalizing T with
  | nil => exact absurd hmem List.not_mem_nil
  | cons first entries ih =>
      unfold extractEntries at h
      split at h
      · cases h
      rename_i T'' hT''
      rcases List.mem_cons.mp hmem with rfl | hmem
      · obtain ⟨⟨p, hp, hthere⟩, _⟩ := extractEntry_free hT''
        obtain ⟨ct, hct⟩ := Option.ne_none_iff_exists'.mp hthere
        exact ⟨p, hp, by rw [extractEntries_grows h p ct hct]; simp⟩
      · exact ih h hmem

/-- What an archive names below the marker is in the tree it unpacks to. -/
theorem extract_below_marker (h : extract umask (emptyTree perm) archive = some T)
    (hmem : hdr ∈ archive.entries) (hbelow : belowMarker hdr.name = true) :
    ∃ rest, rest ≠ [] ∧ T (cacheCompletionMarker :: rest) ≠ none := by
  unfold extract at h
  split at h
  case isFalse => cases h
  obtain ⟨p, hp, hthere⟩ := extractEntries_mem h hmem
  obtain ⟨hne, hnames, hclean, _, _, _⟩ := entryPath_some hp
  have hpre : cacheCompletionMarker ++ [slash] <+: joinSlash p := by
    rw [← hclean, ← List.isPrefixOf_iff_prefix]
    exact hbelow
  obtain ⟨hhead, hsingle⟩ := head_of_below (by decide) (fun y hy => (hnames y hy).no_slash) hpre
  obtain ⟨b, rest, rfl⟩ := List.exists_cons_of_ne_nil hne
  obtain rfl : b = cacheCompletionMarker := Option.some.inj hhead
  exact ⟨rest, fun hr => hsingle (by rw [hr]), hthere⟩

/-- If it names nothing there, the marker's place is free. -/
theorem extract_marker_free (h : extract umask (emptyTree perm) archive = some T)
    (hfree : ∀ hdr ∈ archive.entries, belowMarker hdr.name = false) :
    T [cacheCompletionMarker] = none := by
  unfold extract at h
  split at h
  case isFalse => cases h
  have hF := (extractEntries_free_iff (free_emptyTree perm) h).mpr hfree
  exact by_contra fun hne => hF _ hne (.inl (List.prefix_refl _))

/-- In an unpacked tree the marker's place is free, or an archive has put a directory
there by naming something below it. -/
theorem marker_place {s : Site} {w : World} (h : extract umask (emptyTree perm) archive = some T)
    (hw : Holds s T w) : T [cacheCompletionMarker] = none ∨ T.isDir [cacheCompletionMarker] := by
  by_cases hfree : ∀ hdr ∈ archive.entries, belowMarker hdr.name = false
  · exact .inl (extract_marker_free h hfree)
  · refine .inr ?_
    obtain ⟨hdr, hb⟩ := not_forall.mp hfree
    obtain ⟨hmem, hbelow⟩ := Classical.not_imp.mp hb
    obtain ⟨rest, hrest, hthere⟩ := extract_below_marker h hmem (Bool.of_not_eq_false hbelow)
    refine hw.isDir_iff.mp (FS.isDir_of_below (q := rest) ?_ hrest)
    rw [List.append_assoc]
    exact fun hnone => hthere (hw.node_none_iff.mp hnone)

/-! ## Unpacking -/

/-- An empty region holds the empty tree. -/
theorem view_of_empty {s : Site} {w : World} (hleads : w.fs.At s.rooted s.parts s.loc)
    (hempty : ∀ rel, rel ≠ [] → w.fs.node (s.loc ++ rel) = none) :
    ∃ perm, w.fs.view s.loc = emptyTree perm := by
  have hdir : w.fs.isDir (s.loc ++ []) = true := by
    rw [List.append_nil]
    exact hleads.isDir
  obtain ⟨perm, hperm⟩ := FS.isDir_iff_view.mp hdir
  refine ⟨perm, ?_⟩
  funext rel
  by_cases hrel : rel = []
  · rw [hrel, hperm]
    rfl
  · rw [FS.view_eq_none_iff.mpr (hempty rel hrel)]
    simp [emptyTree, hrel]

/-- When `unpackTar` succeeds in an empty directory, the tree it leaves has nothing
at or below a reserved name exactly when no entry's cleaned name is below the
completion marker. -/
theorem unpackTar_reserved_iff (m : Mode) (tid : Nat) (archive : Archive) (tarFile : Bytes)
    (s : Site) {w₀ w : World} {n : Nat} (hleads : w₀.fs.At s.rooted s.parts s.loc)
    (hempty : ∀ rel, rel ≠ [] → w₀.fs.node (s.loc ++ rel) = none) (humask : w₀.umask = s.umask)
    (hrun : Run (exec m tid) (Quiet s) n (unpackTar (fun _ => archive) tarFile (s.path [])) w₀
      (.ret (.ok ())) w) :
    (∀ rel, w.fs.node (s.loc ++ rel) ≠ none → ¬ Reserved rel) ↔
      ∀ hdr ∈ archive.entries, belowMarker hdr.name = false := by
  obtain ⟨perm, hview⟩ := view_of_empty hleads hempty
  have hroot : TreeMap.isDir (emptyTree perm) [] := ⟨perm, rfl⟩
  have htriple := unpackTar_spec (m := m) tid (guarded_quiet s) hleads.parts_clean hroot
    (fun _ => archive) tarFile (F := fun _ => True) fun _ _ _ _ _ => trivial
  have hholds := holds_of_empty hleads hempty humask
  rw [hview] at hholds
  rcases (htriple w₀ ⟨trivial, hholds⟩ n _ w hrun).2 _ rfl with ⟨_, ⟨e, he⟩, _⟩ | ⟨x, _, T, hT, hw⟩
  · cases he
  cases x with
  | error e => cases hT
  | ok data =>
      have hentries : extractEntries s.umask (emptyTree perm) archive.entries = some T := by
        simp only [extractRead, extract] at hT
        split at hT
        · exact hT
        · cases hT
      rw [← extractEntries_free_iff (free_emptyTree perm) hentries]
      refine forall_congr' fun rel => ?_
      rw [Ne, hw.2.node_none_iff]

/-- The directory `a/b` is unpacked and leaves the reserved names free. -/
theorem unpackTar_reserved_free :
    ∃ w, Run (exec .calm 1) (Quiet containSite) 10
        (unpackTar (fun _ => containArchive) (lit "/tar") (containSite.path [])) containWorld
        (.ret (.ok ())) w ∧
      ∀ rel, w.fs.node (containSite.loc ++ rel) ≠ none → ¬ Reserved rel := by
  have hrun : ((simulate 1 10 (unpackTar (fun _ => containArchive) (lit "/tar")
      (containSite.path [])) containWorld).map fun x => result x.1) = some (some (.ok ())) := by
    decide +kernel
  obtain ⟨⟨p, w⟩, hsim, hres⟩ := Option.map_eq_some_iff.mp hrun
  have hp : p = .ret (.ok ()) := result_eq_some hres
  rw [hp] at hsim
  have hrun' := simulate_sound (m := .calm) (R := Quiet containSite) hsim
  exact ⟨w, hrun', (unpackTar_reserved_iff .calm 1 containArchive (lit "/tar") containSite
    containSite_at containSite_empty rfl hrun').mpr (by decide)⟩

/-- An archive with the one file `.container-builder-shim-complete/x`. -/
def markerEntry : TarEntry :=
  ⟨lit ".container-builder-shim-complete/x", .reg, [], 0o644, [[1]], none⟩

def markerArchive : Archive := ⟨[markerEntry], none⟩

/-- `unpackTar` accepts it, and leaves a directory where the completion marker is to
be written. -/
theorem unpackTar_below_marker :
    ∃ w, Run (exec .calm 1) (Quiet containSite) 12
        (unpackTar (fun _ => markerArchive) (lit "/tar") (containSite.path [])) containWorld
        (.ret (.ok ())) w ∧
      w.fs.isDir (containSite.loc ++ [cacheCompletionMarker]) = true ∧
      w.fs.node (containSite.loc ++ [cacheCompletionMarker, lit "x"]) ≠ none := by
  have hrun : ((simulate 1 12 (unpackTar (fun _ => markerArchive) (lit "/tar")
      (containSite.path [])) containWorld).map fun x => (result x.1,
        x.2.fs.isDir (containSite.loc ++ [cacheCompletionMarker]),
        x.2.fs.node (containSite.loc ++ [cacheCompletionMarker, lit "x"]))) =
      some (some (.ok ()), true, some ⟨.file 1, 1⟩) := by decide +kernel
  obtain ⟨⟨p, w⟩, hsim, hx⟩ := Option.map_eq_some_iff.mp hrun
  simp only [Prod.mk.injEq] at hx
  obtain ⟨hres, hdir, hnode⟩ := hx
  rw [result_eq_some hres] at hsim
  exact ⟨w, simulate_sound hsim, hdir, by rw [hnode]; simp⟩

end BuilderShim.Fileutils
