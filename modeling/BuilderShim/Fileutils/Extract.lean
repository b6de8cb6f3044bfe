/-
  Fileutils/Extract.lean --- what unpacking an archive is for.

  The contents of the destination are a map from relative locations to contents,
  and one entry of the archive maps such a map to the next, or is refused.  No
  paths are resolved and nothing can fail halfway: that `unpackTar` computes
  exactly this, one system call at a time, is `unpackTar_spec`.
-/
import BuilderShim.Posix.Region
import BuilderShim.Fileutils.Unpack

set_option autoImplicit false

namespace BuilderShim.Fileutils

open BuilderShim.Filepath
open BuilderShim.Posix

/-- The elements of an entry's cleaned name, if `tarTarget` lets it through. -/
def entryPath (name : Bytes) : Option (List Bytes) :=
  match tarTarget dot name with
  | .ok _ => some (split (clean name))
  | .error _ => none

/-- Create the directories that are missing on the way from `done` through `names`. -/
def addParents (umask : Nat) : TreeMap → List Bytes → List Bytes → Option TreeMap
  | T, _, [] => some T
  | T, done, c :: names =>
      match T (done ++ [c]) with
      | none =>
          addParents umask (T.insert (done ++ [c]) (.dir (maskPerm umask 0o755)))
            (done ++ [c]) names
      | some (.dir _) => addParents umask T (done ++ [c]) names
      | some _ => none

/-- Create the parents of `p`, which must be new. -/
def newPath (umask : Nat) (T : TreeMap) (p : List Bytes) : Option TreeMap :=
  match addParents umask T [] p.dropLast with
  | none => none
  | some T' => if T' p = none then some T' else none

def addNew (umask : Nat) (T : TreeMap) (p : List Bytes) (c : Content) : Option TreeMap :=
  (newPath umask T p).map fun T' => T'.insert p c

def addDirectory (umask : Nat) (T : TreeMap) (p : List Bytes) : Option TreeMap :=
  match addParents umask T [] p.dropLast with
  | none => none
  | some T' =>
      match T' p with
      | none => some (T'.insert p (.dir (maskPerm umask 0o755)))
      | some (.dir _) => some T'
      | some _ => none

/-- A second name for the regular file at `old`. -/
def addLink (umask : Nat) (T : TreeMap) (old p : List Bytes) : Option TreeMap :=
  match addParents umask T [] old.dropLast with
  | none => none
  | some T' =>
      match T' old with
      | some (.file perm data) => addNew umask T' p (.file perm data)
      | _ => none

def extractEntry (umask : Nat) (T : TreeMap) (hdr : TarEntry) : Option TreeMap :=
  match entryPath hdr.name with
  | none => none
  | some p =>
      match hdr.typeflag with
      | .dir => addDirectory umask T p
      | .reg =>
          if hdr.bodyErr = none then
            addNew umask T p (.file (maskPerm umask (hdr.mode &&& 0o777)) hdr.body.flatten)
          else none
      | .symlink => if hdr.linkname = [] then none else addNew umask T p (.symlink hdr.linkname)
      | .link =>
          match entryPath hdr.linkname with
          | none => none
          | some old => addLink umask T old p
      | .other _ => none

def extractEntries (umask : Nat) : TreeMap → List TarEntry → Option TreeMap
  | T, [] => some T
  | T, hdr :: entries =>
      match extractEntry umask T hdr with
      | none => none
      | some T' => extractEntries umask T' entries

/-- The tree an archive unpacks to, over the contents `T`. -/
def extract (umask : Nat) (T : TreeMap) (archive : Archive) : Option TreeMap :=
  if archive.failure = none then extractEntries umask T archive.entries else none

/-- An empty directory. -/
def emptyTree (perm : Nat) : TreeMap := fun q => if q = [] then some (.dir perm) else none

theorem emptyTree_isDir (perm : Nat) : (emptyTree perm).isDir [] := ⟨perm, if_pos rfl⟩

/-! ## Names of entries -/

/-- A name that is let through leads to its elements below every destination. -/
theorem tarTarget_cases (s : Site) (hs : CleanParts s.rooted s.parts) (name : Bytes) :
    (∃ p, entryPath name = some p ∧ tarTarget (s.path []) name = .ok (s.path p) ∧ p ≠ [] ∧
        ∀ c ∈ p, Name c) ∨
      entryPath name = none ∧ ∃ e, tarTarget (s.path []) name = .error e := by
  unfold entryPath tarTarget
  by_cases hbad : clean name = dot ∨ isLocal (clean name) = false
  · simp [hbad]
  by_cases hres : clean name = dockerfileStaging ∨
      (dockerfileStaging ++ [slash]).isPrefixOf (clean name) = true ∨
      clean name = cacheCompletionMarker
  · simp only [if_neg hbad, if_pos hres]
    exact .inr ⟨trivial, _, rfl⟩
  simp only [if_neg hbad, if_neg hres]
  left
  have hlocal : isLocal (clean name) = true := by
    cases h : isLocal (clean name) with
    | true => rfl
    | false => exact absurd (.inr h) hbad
  obtain ⟨names, hne, hnames, hclean⟩ := names_of_isLocal hlocal fun h => hbad (.inl h)
  have hsplit : split (clean name) = names := by
    rw [hclean]
    exact split_joinSlash (fun c hc => (hnames c hc).no_slash) hne
  refine ⟨names, by rw [hsplit], ?_, hne, hnames⟩
  rw [hclean]
  unfold Site.path
  rw [List.append_nil, join_render names hs hnames hne]

variable {p done names : List Bytes} {T T' : TreeMap} {c : Content} {umask : Nat} {q : Loc}

/-- What `tarTarget` lets through. -/
theorem entryPath_some {name : Bytes} (h : entryPath name = some p) :
    p ≠ [] ∧ (∀ c ∈ p, Name c) ∧ clean name = joinSlash p ∧
      clean name ≠ dockerfileStaging ∧
      (dockerfileStaging ++ [slash]).isPrefixOf (clean name) = false ∧
      clean name ≠ cacheCompletionMarker := by
  unfold entryPath tarTarget at h
  by_cases hbad : clean name = dot ∨ isLocal (clean name) = false
  · simp [hbad] at h
  by_cases hres : clean name = dockerfileStaging ∨
      (dockerfileStaging ++ [slash]).isPrefixOf (clean name) = true ∨
      clean name = cacheCompletionMarker
  · simp only [if_neg hbad, if_pos hres] at h
    cases h
  simp only [if_neg hbad, if_neg hres, Option.some.injEq] at h
  have hlocal : isLocal (clean name) = true := by
    cases hl : isLocal (clean name) with
    | true => rfl
    | false => exact absurd (.inr hl) hbad
  obtain ⟨names, hne, hnames, hclean⟩ := names_of_isLocal hlocal fun hd => hbad (.inl hd)
  have hp : p = names := by
    rw [← h, hclean]
    exact split_joinSlash (fun c hc => (hnames c hc).no_slash) hne
  subst hp
  simp only [not_or, Bool.not_eq_true] at hres
  exact ⟨hne, hnames, hclean, hres⟩

/-! ## What the steps keep -/

/-- Nothing of `T` is changed or taken away in `T'`. -/
def TreeGrows (T T' : TreeMap) : Prop := ∀ q c, T q = some c → T' q = some c

theorem TreeGrows.refl (T : TreeMap) : TreeGrows T T := fun _ _ h => h

theorem TreeGrows.trans {T'' : TreeMap} (h : TreeGrows T T') (h' : TreeGrows T' T'') :
    TreeGrows T T'' := fun q c hq => h' q c (h q c hq)

theorem TreeGrows.insert {p : Loc} (h : T p = none) :
    TreeGrows T (T.insert p c) := by
  intro q c' hq
  by_cases hqp : q = p
  · rw [hqp, h] at hq
    cases hq
  · rw [TreeMap.insert_other hqp]
    exact hq

theorem TreeGrows.isDir (h : TreeGrows T T') {p : Loc} (hd : T.isDir p) :
    T'.isDir p := by
  obtain ⟨perm, hp⟩ := hd
  exact ⟨perm, h p _ hp⟩

theorem addParents_grows (h : addParents umask T done names = some T') : TreeGrows T T' := by
  induction names generalizing T done with
  | nil =>
      simp only [addParents, Option.some.injEq] at h
      rw [h]
      exact TreeGrows.refl T'
  | cons c names ih =>
      unfold addParents at h
      split at h
      · rename_i hnone
        exact (TreeGrows.insert hnone).trans (ih h)
      · exact ih h
      · cases h

/-- Only what is on the way is created. -/
theorem addParents_new (h : addParents umask T done names = some T') (hq : T' q ≠ none) :
    T q ≠ none ∨ (q ≠ [] ∧ q <+: done ++ names) := by
  induction names generalizing T done with
  | nil =>
      simp only [addParents, Option.some.injEq] at h
      rw [← h] at hq
      exact .inl hq
  | cons c names ih =>
      have happ : done ++ c :: names = (done ++ [c]) ++ names := by simp
      rw [happ]
      unfold addParents at h
      split at h
      · rcases ih h with hT | hnew
        · by_cases hqc : q = done ++ [c]
          · rw [hqc]
            exact .inr ⟨by simp, List.prefix_append _ _⟩
          · rw [TreeMap.insert_other hqc] at hT
            exact .inl hT
        · exact .inr hnew
      · exact ih h
      · cases h

/-- The parents are directories afterwards. -/
theorem addParents_isDir (h : addParents umask T done names = some T') (hdone : T.isDir done) :
    T'.isDir (done ++ names) := by
  induction names generalizing T done with
  | nil =>
      simp only [addParents, Option.some.injEq] at h
      rw [← h]
      simpa using hdone
  | cons c names ih =>
      have happ : done ++ c :: names = (done ++ [c]) ++ names := by simp
      rw [happ]
      unfold addParents at h
      split at h
      · exact ih h ⟨_, TreeMap.insert_self _ _ _⟩
      · rename_i perm hdir
        exact ih h ⟨perm, hdir⟩
      · cases h

theorem newPath_new {p : Loc} (h : newPath umask T p = some T') (hq : T' q ≠ none) :
    T q ≠ none ∨ (q ≠ [] ∧ q <+: p) := by
  unfold newPath at h
  split at h
  · cases h
  · rename_i T'' hp
    split at h
    · cases h
      refine (addParents_new hp hq).imp_right fun hnew => ⟨hnew.1, hnew.2.trans ?_⟩
      rw [List.nil_append]
      exact List.dropLast_prefix p
    · cases h

theorem addNew_new {p : Loc} (hp : p ≠ []) (h : addNew umask T p c = some T') :
    T' p ≠ none ∧ (T' q ≠ none → T q ≠ none ∨ (q ≠ [] ∧ q <+: p)) := by
  obtain ⟨T'', hnew, rfl⟩ := Option.map_eq_some_iff.mp h
  refine ⟨by simp, fun hq => ?_⟩
  by_cases hqp : q = p
  · rw [hqp]
    exact .inr ⟨hp, List.prefix_refl p⟩
  · rw [TreeMap.insert_other hqp] at hq
    exact newPath_new hnew hq

theorem addDirectory_new {p : Loc} (hp : p ≠ []) (h : addDirectory umask T p = some T') :
    T' p ≠ none ∧ (T' q ≠ none → T q ≠ none ∨ (q ≠ [] ∧ q <+: p)) := by
  unfold addDirectory at h
  split at h
  · cases h
  rename_i T'' hpar
  have hold : T'' q ≠ none → T q ≠ none ∨ (q ≠ [] ∧ q <+: p) := by
    intro hq
    refine (addParents_new hpar hq).imp_right fun hnew => ⟨hnew.1, hnew.2.trans ?_⟩
    rw [List.nil_append]
    exact List.dropLast_prefix p
  split at h
  · cases h
    refine ⟨by simp, fun hq => ?_⟩
    by_cases hqp : q = p
    · rw [hqp]
      exact .inr ⟨hp, List.prefix_refl p⟩
    · rw [TreeMap.insert_other hqp] at hq
      exact hold hq
  · rename_i perm hdir
    cases h
    exact ⟨by simp [hdir], hold⟩
  · cases h

/-- A hard link is to a file that was there before, so no parent of it is new. -/
theorem addLink_new {old p : Loc} (hp : p ≠ []) (h : addLink umask T old p = some T') :
    T old ≠ none ∧ T' p ≠ none ∧
      (T' q ≠ none → T q ≠ none ∨ (q ≠ [] ∧ (q <+: p ∨ q <+: old))) := by
  unfold addLink at h
  split at h
  · cases h
  rename_i T'' hpar
  split at h
  · rename_i perm data hold
    have hback : ∀ q, T'' q ≠ none → T q ≠ none ∨ (q ≠ [] ∧ q <+: old.dropLast) := by
      intro q hq
      simpa using addParents_new hpar hq
    obtain ⟨hmem, hnew⟩ := addNew_new (q := q) hp h
    refine ⟨?_, hmem, fun hq => ?_⟩
    · rcases hback old (by simp [hold]) with hT | ⟨hne, hpre⟩
      · exact hT
      · have hlen := hpre.length_le
        rw [List.length_dropLast] at hlen
        have hpos := List.length_pos_of_ne_nil hne
        omega
    · rcases hnew hq with hq' | ⟨hne, hpre⟩
      · refine (hback q hq').imp_right fun hx => ⟨hx.1, .inr (hx.2.trans ?_)⟩
        exact List.dropLast_prefix old
      · exact .inr ⟨hne, .inl hpre⟩
  · cases h

theorem newPath_grows (h : newPath umask T p = some T') : TreeGrows T T' ∧ T' p = none := by
  unfold newPath at h
  split at h
  · cases h
  · rename_i T'' hp
    split at h
    · rename_i hfree
      cases h
      exact ⟨addParents_grows hp, hfree⟩
    · cases h

theorem newPath_cases {c : Bytes} (h : newPath umask T (names ++ [c]) = some T')
    (hroot : T.isDir []) :
    TreeGrows T T' ∧ T'.isDir names ∧ T' (names ++ [c]) = none := by
  obtain ⟨hgrows, hfree⟩ := newPath_grows h
  refine ⟨hgrows, ?_, hfree⟩
  unfold newPath at h
  rw [List.dropLast_concat] at h
  split at h
  · cases h
  · rename_i T'' hp
    split at h
    · cases h
      simpa using addParents_isDir hp hroot
    · cases h

theorem addNew_grows (h : addNew umask T p c = some T') : TreeGrows T T' := by
  obtain ⟨T'', hnew, rfl⟩ := Option.map_eq_some_iff.mp h
  obtain ⟨hgrows, hfree⟩ := newPath_grows hnew
  exact hgrows.trans (TreeGrows.insert hfree)

theorem addDirectory_grows (h : addDirectory umask T p = some T') : TreeGrows T T' := by
  unfold addDirectory at h
  split at h
  · cases h
  · rename_i T'' hp
    split at h
    · rename_i hfree
      cases h
      exact (addParents_grows hp).trans (TreeGrows.insert hfree)
    · cases h
      exact addParents_grows hp
    · cases h

theorem addLink_grows {old : List Bytes} (h : addLink umask T old p = some T') :
    TreeGrows T T' := by
  unfold addLink at h
  split at h
  · cases h
  · rename_i T'' hp
    split at h
    · exact (addParents_grows hp).trans (addNew_grows h)
    · cases h

/-- An entry adds to the tree and changes nothing that is there. -/
theorem extractEntry_grows {hdr : TarEntry} (h : extractEntry umask T hdr = some T') :
    TreeGrows T T' := by
  unfold extractEntry at h
  split at h
  · cases h
  rename_i p hp
  split at h
  · exact addDirectory_grows h
  · split at h
    · exact addNew_grows h
    · cases h
  · split at h
    · cases h
    · exact addNew_grows h
  · split at h
    · cases h
    · exact addLink_grows h
  · cases h

theorem extractEntries_grows {entries : List TarEntry}
    (h : extractEntries umask T entries = some T') : TreeGrows T T' := by
  induction entries generalizing T with
  | nil =>
      simp only [extractEntries, Option.some.injEq] at h
      rw [h]
      exact TreeGrows.refl T'
  | cons hdr entries ih =>
      unfold extractEntries at h
      split at h
      · cases h
      · rename_i T'' hT''
        exact (extractEntry_grows hT'').trans (ih h)

theorem extract_grows {archive : Archive} (h : extract umask T archive = some T') :
    TreeGrows T T' := by
  unfold extract at h
  split at h
  · exact extractEntries_grows h
  · cases h

end BuilderShim.Fileutils
