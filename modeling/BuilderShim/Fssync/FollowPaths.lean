/-
  Fssync/FollowPaths.lean --- the list of paths to follow as one string
  (unmarshalWalkMetadata, requestedSyntheticDockerfilePaths and FS.Walk,
  pkg/fssync/walk.go).

  The values of `followpaths` are joined with commas, and the string is split at its
  commas again here and on the host.  A comma may be part of a file name, so what comes
  back are the pieces between the commas and not the elements.  When the string is
  empty, the host gets the files that the Dockerfile names.
-/
import BuilderShim.Fssync.Exclude

set_option autoImplicit false

namespace BuilderShim.Fssync

open BuilderShim.Fileutils
open BuilderShim.Filepath
open BuilderShim.Posix

/-- The two paths that are found in the request. -/
def syntheticPaths : List Bytes := [syntheticDockerfile, syntheticDockerignore]

/-- The values of `followpaths` in the metadata. -/
def followList (incoming : Bytes → List Bytes) : List Bytes := incoming (lit "followpaths")

/-- A path that was sent, as it is compared. -/
def entryPath (path : Bytes) : Bytes := clean (Strings.trimSpace path)

/-- The paths found are those that a single element of the list is. -/
def FoundExactly (incoming : Bytes → List Bytes) (walkMeta : WalkMetadata) : Prop :=
  ∀ path, path ∈ requestedSyntheticDockerfilePaths walkMeta.followPaths ↔
    path ∈ syntheticPaths ∧ ∃ e ∈ followList incoming, entryPath e = path

/-- What commas inside the elements do to a path makes no difference: an element without one
is the path, or else one with commas is the path if and only if one has it as a piece. -/
def CommasHarmless (elements : List Bytes) : Prop :=
  ∀ path ∈ syntheticPaths,
    (∃ e ∈ elements, 44 ∉ e ∧ entryPath e = path) ∨
      ((∃ e ∈ elements, 44 ∈ e ∧ entryPath e = path) ↔
        ∃ e ∈ elements, 44 ∈ e ∧ ∃ piece ∈ Strings.split 44 e, entryPath piece = path)

/-- The list that is sent to the host: that of the request, or the files that the Dockerfile
names if there is nothing in it. -/
def sentList (addedGlobs elements : List Bytes) : List Bytes :=
  if elements = [] ∨ elements = [[]] then addedGlobs else elements

/-- What is between the commas of a joined list. -/
def pieces (elements : List Bytes) : List Bytes :=
  if elements = [] then [[]] else elements.flatMap (Strings.split 44)

/-! ## The string -/

theorem split_join_comma (elements : List Bytes) :
    Strings.split 44 (Strings.join comma elements) = pieces elements := by
  unfold pieces
  split
  · rename_i h
    rw [h]
    rfl
  · rename_i h
    exact Strings.split_join 44 h

/-- Two lists give one string if they have the same pieces. -/
theorem join_comma_eq_iff {a b : List Bytes} :
    Strings.join comma a = Strings.join comma b ↔ pieces a = pieces b := by
  rw [← split_join_comma, ← split_join_comma]
  exact ⟨congrArg _, Strings.split_injective 44⟩

variable {elements : List Bytes} {incoming : Bytes → List Bytes} {walkMeta : WalkMetadata}
  {path : Bytes}

theorem join_comma_eq_nil_iff :
    Strings.join comma elements = [] ↔ elements = [] ∨ elements = [[]] := by
  match elements with
  | [] => exact iff_of_true rfl (.inl rfl)
  | [e] =>
      have hone : Strings.join comma [e] = e := List.intercalate_singleton
      rw [hone]
      simp
  | a :: b :: rest =>
      rw [Strings.join_cons_cons]
      simp [comma, lit]

/-- `unmarshalWalkMetadata` joins the list. -/
theorem followPaths_eq (h : unmarshalWalkMetadata (some incoming) = .ok walkMeta) :
    walkMeta.followPaths = Strings.join comma (followList incoming) := by
  unfold unmarshalWalkMetadata at h
  dsimp only at h
  split at h
  · cases h
    rfl
  · cases h

/-- The string for the host. -/
theorem followPathsForWalk_eq (h : unmarshalWalkMetadata (some incoming) = .ok walkMeta)
    (addedGlobs : List Bytes) :
    followPathsForWalk walkMeta (some addedGlobs) =
      Strings.join comma (sentList addedGlobs (followList incoming)) := by
  unfold followPathsForWalk sentList
  dsimp only
  simp only [followPaths_eq h, join_comma_eq_nil_iff]
  exact (apply_ite (Strings.join comma) _ _ _).symm

/-! ## The paths that are found -/

theorem entryPath_nil_notMem : entryPath [] ∉ syntheticPaths := by decide

theorem mem_requested_iff {followPaths : Bytes} :
    path ∈ requestedSyntheticDockerfilePaths followPaths ↔
      path ∈ syntheticPaths ∧ ∃ piece ∈ Strings.split 44 followPaths, entryPath piece = path := by
  have hinput : path ∈ syntheticPaths ↔ path = syntheticDockerfile ∨ path = syntheticDockerignore :=
    List.mem_pair
  unfold requestedSyntheticDockerfilePaths
  rw [List.mem_filter, decide_eq_true_iff, ← hinput, List.mem_map, and_comm]
  rfl

/-- A path is found if it is a piece of an element. -/
theorem mem_requested_join :
    path ∈ requestedSyntheticDockerfilePaths (Strings.join comma elements) ↔
      path ∈ syntheticPaths ∧
        ∃ e ∈ elements, ∃ piece ∈ Strings.split 44 e, entryPath piece = path := by
  rw [mem_requested_iff, split_join_comma]
  refine and_congr_right fun hpath => ?_
  unfold pieces
  split
  · -- the empty string is no path of the two
    rename_i hnil
    subst hnil
    refine iff_of_false ?_ ?_
    · rintro ⟨piece, hpiece, rfl⟩
      rw [List.mem_singleton.mp hpiece] at hpath
      exact entryPath_nil_notMem hpath
    · rintro ⟨e, he, _⟩
      exact absurd he List.not_mem_nil
  · constructor
    · rintro ⟨piece, hpiece, heq⟩
      obtain ⟨e, he, hsplit⟩ := List.mem_flatMap.mp hpiece
      exact ⟨e, he, piece, hsplit, heq⟩
    · rintro ⟨e, he, piece, hsplit, heq⟩
      exact ⟨piece, List.mem_flatMap.mpr ⟨e, he, hsplit⟩, heq⟩

/-- An element without a comma is its only piece. -/
theorem piece_of_notMem {e : Bytes} (h : 44 ∉ e) :
    (∃ piece ∈ Strings.split 44 e, entryPath piece = path) ↔ entryPath e = path := by
  rw [Strings.split_of_notMem h]
  constructor
  · rintro ⟨piece, hpiece, heq⟩
    rwa [List.mem_singleton.mp hpiece] at heq
  · exact fun heq => ⟨e, List.mem_cons_self, heq⟩

/-- The elements that are a path, apart by whether they have a comma. -/
theorem exists_split_comma {P : Bytes → Prop} :
    (∃ e ∈ elements, P e) ↔
      (∃ e ∈ elements, 44 ∉ e ∧ P e) ∨ ∃ e ∈ elements, 44 ∈ e ∧ P e := by
  constructor
  · rintro ⟨e, he, hP⟩
    by_cases hcomma : 44 ∈ e
    · exact .inr ⟨e, he, hcomma, hP⟩
    · exact .inl ⟨e, he, hcomma, hP⟩
  · rintro (⟨e, he, _, hP⟩ | ⟨e, he, _, hP⟩)
    · exact ⟨e, he, hP⟩
    · exact ⟨e, he, hP⟩

theorem foundExactly_iff (h : unmarshalWalkMetadata (some incoming) = .ok walkMeta) :
    FoundExactly incoming walkMeta ↔ CommasHarmless (followList incoming) := by
  have hplain : ∀ path,
      (∃ e ∈ followList incoming, 44 ∉ e ∧ ∃ piece ∈ Strings.split 44 e, entryPath piece = path) ↔
        ∃ e ∈ followList incoming, 44 ∉ e ∧ entryPath e = path := fun path =>
    exists_congr fun e => and_congr_right fun _ => and_congr_right fun hcomma =>
      piece_of_notMem hcomma
  unfold FoundExactly CommasHarmless
  rw [followPaths_eq h]
  refine forall_congr' fun path => ?_
  rw [mem_requested_join, and_congr_right_iff]
  refine imp_congr_right fun _ => ?_
  rw [exists_split_comma (P := fun e => ∃ piece ∈ Strings.split 44 e, entryPath piece = path),
    exists_split_comma (P := fun e => entryPath e = path), hplain]
  -- an element without a comma counts on both sides
  by_cases hfree : ∃ e ∈ followList incoming, 44 ∉ e ∧ entryPath e = path
  · simp only [hfree, true_or]
  · simp only [hfree, false_or]
    exact iff_comm

/-- In particular elements without commas are found. -/
theorem commasHarmless_of_free (h : ∀ e ∈ elements, 44 ∉ e) : CommasHarmless elements := by
  refine fun path _ => .inr (iff_of_false ?_ ?_)
  · rintro ⟨e, he, hcomma, _⟩
    exact h e he hcomma
  · rintro ⟨e, he, hcomma, _⟩
    exact h e he hcomma

/-! ## Boundaries -/

/-- The request finds what its elements are, and another list gives the host another string. -/
structure KeepsBoundaries (addedGlobs : List Bytes) (incoming incoming' : Bytes → List Bytes)
    (walkMeta walkMeta' : WalkMetadata) : Prop where
  found : FoundExactly incoming walkMeta
  differ : followList incoming ≠ followList incoming' →
    followPathsForWalk walkMeta (some addedGlobs) ≠ followPathsForWalk walkMeta' (some addedGlobs)

/-- The boundaries are kept exactly if commas inside the elements make no difference to the two
paths, and lists that are not the same are not cut into the same pieces. -/
theorem keepsBoundaries_iff (addedGlobs : List Bytes) {incoming incoming' : Bytes → List Bytes}
    {walkMeta walkMeta' : WalkMetadata}
    (h : unmarshalWalkMetadata (some incoming) = .ok walkMeta)
    (h' : unmarshalWalkMetadata (some incoming') = .ok walkMeta') :
    KeepsBoundaries addedGlobs incoming incoming' walkMeta walkMeta' ↔
      CommasHarmless (followList incoming) ∧
        (followList incoming = followList incoming' ∨
          pieces (sentList addedGlobs (followList incoming)) ≠
            pieces (sentList addedGlobs (followList incoming'))) := by
  have hdiffer : (followList incoming ≠ followList incoming' →
      followPathsForWalk walkMeta (some addedGlobs) ≠
        followPathsForWalk walkMeta' (some addedGlobs)) ↔
      (followList incoming = followList incoming' ∨
        pieces (sentList addedGlobs (followList incoming)) ≠
          pieces (sentList addedGlobs (followList incoming'))) := by
    rw [followPathsForWalk_eq h, followPathsForWalk_eq h', ne_eq, ne_eq, join_comma_eq_iff]
    exact (Classical.or_iff_not_imp_left).symm
  rw [← foundExactly_iff h, ← hdiffer]
  exact ⟨fun hkeeps => ⟨hkeeps.found, hkeeps.differ⟩, fun hkeeps => ⟨hkeeps.1, hkeeps.2⟩⟩

/-- A request that has only paths to follow. -/
def following (elements : List Bytes) : Bytes → List Bytes := fun key =>
  if key = lit "followpaths" then elements else []

/-- What becomes of it. -/
def followMeta (elements : List Bytes) : WalkMetadata :=
  ⟨[], [], Strings.join comma elements, [], .tar⟩

theorem unmarshal_following (elements : List Bytes) :
    unmarshalWalkMetadata (some (following elements)) = .ok (followMeta elements) := rfl

/-- The Dockerfile and a name without commas keep their boundaries against one name. -/
theorem keepsBoundaries_names :
    KeepsBoundaries [] (following [syntheticDockerfile, lit "b"]) (following [lit "c"])
      (followMeta [syntheticDockerfile, lit "b"]) (followMeta [lit "c"]) :=
  (keepsBoundaries_iff [] (unmarshal_following _) (unmarshal_following _)).mpr
    ⟨commasHarmless_of_free (by decide), .inr (by decide)⟩

/-- The name of a file, with a comma in it, that ends with the path of the Dockerfile. -/
def commaName : Bytes := lit "x," ++ syntheticDockerfile

/-- The Dockerfile is found although nothing but another file was asked for, and the request
for the two parts of the name is not told apart from the one for the file. -/
theorem comma_breaks_boundaries :
    ¬ FoundExactly (following [commaName]) (followMeta [commaName]) ∧
      [commaName] ≠ [lit "x", syntheticDockerfile] ∧
      followPathsForWalk (followMeta [commaName]) (some []) =
        followPathsForWalk (followMeta [lit "x", syntheticDockerfile]) (some []) := by
  refine ⟨fun hfound => ?_, by decide, by decide⟩
  have hmem : syntheticDockerfile ∈
      requestedSyntheticDockerfilePaths (followMeta [commaName]).followPaths := by decide
  obtain ⟨_, e, he, hpath⟩ := (hfound syntheticDockerfile).mp hmem
  have hone : e = commaName := List.mem_singleton.mp he
  rw [hone] at hpath
  exact absurd hpath (by decide)

end BuilderShim.Fssync
