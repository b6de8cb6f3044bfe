/-
  Fssync/Exclude.lean --- the exclude patterns of a walk (pkg/fssync/diffcopy.go).

  BuildKit sends the patterns of `.dockerignore`, which may cover the staging directory.
  `excludePatternsForWalk` puts an exception for each Dockerfile input that the request
  asks for behind them.
-/
import BuilderShim.Fssync.Synthetic
import BuilderShim.Fsutil.PatternMatcher

set_option autoImplicit false

namespace BuilderShim.Fssync

open BuilderShim.Fileutils
open BuilderShim.Filepath
open BuilderShim.PatternMatcher
open BuilderShim.Posix

/-! ## Reading the request -/

inductive TransferMode where
  | tar
  deriving DecidableEq

structure WalkMetadata where
  includePatterns : Bytes
  excludedPatterns : List Bytes
  followPaths : Bytes
  dirName : Bytes
  mode : TransferMode
  deriving DecidableEq

def comma : Bytes := lit ","

/-- `unmarshalWalkMetadata`; the metadata of the incoming context, if it has any, with no
values for a key that is missing. -/
def unmarshalWalkMetadata (incoming : Option (Bytes → List Bytes)) : Except Bytes WalkMetadata :=
  match incoming with
  | none => .ok ⟨[], [], [], [], .tar⟩
  | some m =>
      let modeStr := Strings.join comma (m (lit "mode"))
      if modeStr = [] ∨ modeStr = lit "tar" then
        .ok {
          includePatterns := Strings.join comma (m (lit "include-patterns"))
          excludedPatterns := m (lit "exclude-patterns")
          followPaths := Strings.join comma (m (lit "followpaths"))
          dirName := Strings.join comma (m (lit "dir-name"))
          mode := .tar }
      else .error (lit "invalid walk mode: " ++ modeStr)

/-- `requestedSyntheticDockerfilePaths`: the keys of the map. -/
def requestedSyntheticDockerfilePaths (followPaths : Bytes) : List Bytes :=
  ((followPaths.splitOn 44).map fun path => clean (Strings.trimSpace path)).filter fun path =>
    decide (path = syntheticDockerfile ∨ path = syntheticDockerignore)

/-- The paths that the host is asked to follow: those sent, or else those added by the proxy,
if there is one. -/
def followPathsForWalk (walkMeta : WalkMetadata) (addedGlobs : Option (List Bytes)) : Bytes :=
  match addedGlobs with
  | some globs =>
      if walkMeta.followPaths = [] then Strings.join comma globs else walkMeta.followPaths
  | none => walkMeta.followPaths

/-- The two Dockerfile inputs, in the order of the loop, that `requested` has. -/
def requestedInputs (requested : List Bytes) : List Bytes :=
  [syntheticDockerfile, syntheticDockerignore].filter (decide <| · ∈ requested)

def excludePatternsForWalk (walkMeta : WalkMetadata) (addedGlobs : Option (List Bytes)) :
    List Bytes :=
  if walkMeta.excludedPatterns = [] then []
  else
    let requested := requestedSyntheticDockerfilePaths (followPathsForWalk walkMeta addedGlobs)
    walkMeta.excludedPatterns ++ (requestedInputs requested).map (bang :: ·)

/-! ## The exceptions -/

theorem mem_requestedSyntheticDockerfilePaths {followPaths path : Bytes}
    (h : path ∈ requestedSyntheticDockerfilePaths followPaths) :
    path ∈ [syntheticDockerfile, syntheticDockerignore] := by
  exact List.mem_pair.mpr (of_decide_eq_true (List.mem_filter.mp h).2)

theorem mem_requestedInputs {followPaths path : Bytes} :
    path ∈ requestedInputs (requestedSyntheticDockerfilePaths followPaths) ↔
      path ∈ requestedSyntheticDockerfilePaths followPaths := by
  rw [requestedInputs, List.mem_filter, decide_eq_true_iff]
  exact and_iff_right_of_imp mem_requestedSyntheticDockerfilePaths

theorem plain_input {path : Bytes} (h : path ∈ [syntheticDockerfile, syntheticDockerignore]) :
    Plain path := by
  rcases List.mem_pair.mp h with rfl | rfl
  · decide
  · decide

/-- Neither trimming nor cleaning changes an exception. -/
theorem newPattern_exception (m : Matcher) {path : Bytes}
    (h : path ∈ [syntheticDockerfile, syntheticDockerignore]) :
    m.newPattern (bang :: path) = some (some ⟨true, path⟩) := by
  obtain ⟨htrim, hclean, hne⟩ : Strings.trimSpace (bang :: path) = bang :: path ∧
      clean (bang :: path) = bang :: path ∧ path ≠ [] := by
    rcases List.mem_pair.mp h with rfl | rfl
    · decide
    · decide
  unfold Matcher.newPattern
  rw [htrim, hclean, if_neg (List.cons_ne_nil _ _)]
  dsimp only
  rw [if_pos rfl, if_neg hne, if_pos (m.plain_wellFormed (plain_input h))]

theorem new_exceptions (m : Matcher) {paths : List Bytes}
    (h : ∀ path ∈ paths, path ∈ [syntheticDockerfile, syntheticDockerignore]) :
    m.new (paths.map (bang :: ·)) = some (paths.map (⟨true, ·⟩)) := by
  induction paths with
  | nil => rfl
  | cons path paths ih =>
      obtain ⟨hpath, hpaths⟩ := List.forall_mem_cons.mp h
      rw [List.map_cons, Matcher.new, newPattern_exception m hpath, ih hpaths]
      rfl

section

variable {m : Matcher} {walkMeta : WalkMetadata} {addedGlobs : Option (List Bytes)} {path : Bytes}

/-- The inputs that the request of a walk asks for. -/
def inputsOfWalk (walkMeta : WalkMetadata) (addedGlobs : Option (List Bytes)) : List Bytes :=
  requestedSyntheticDockerfilePaths (followPathsForWalk walkMeta addedGlobs)

theorem new_excludePatternsForWalk (h : walkMeta.excludedPatterns ≠ []) :
    m.new (excludePatternsForWalk walkMeta addedGlobs) =
      (m.new walkMeta.excludedPatterns).map
        (· ++ (requestedInputs (inputsOfWalk walkMeta addedGlobs)).map (⟨true, ·⟩)) := by
  have hinputs : ∀ path ∈ requestedInputs (inputsOfWalk walkMeta addedGlobs),
      path ∈ [syntheticDockerfile, syntheticDockerignore] :=
    fun path hpath => (List.mem_filter.mp hpath).1
  have hnew : m.new ((requestedInputs (inputsOfWalk walkMeta addedGlobs)).map (bang :: ·)) = _ :=
    new_exceptions m hinputs
  unfold excludePatternsForWalk
  rw [if_neg h]
  dsimp only
  rw [new_append]
  change ((m.new walkMeta.excludedPatterns).bind fun ps =>
    (m.new ((requestedInputs (inputsOfWalk walkMeta addedGlobs)).map (bang :: ·))).map
      (ps ++ ·)) = _
  rw [hnew]
  exact Option.map_eq_bind.symm

/-- The exceptions, behind whatever the patterns say. -/
theorem excluded_excludePatternsForWalk :
    m.excluded (excludePatternsForWalk walkMeta addedGlobs) path =
      (m.excluded walkMeta.excludedPatterns path).map
        (· && !(requestedInputs (inputsOfWalk walkMeta addedGlobs)).any (m.covers · path)) := by
  by_cases hnil : walkMeta.excludedPatterns = []
  · unfold excludePatternsForWalk
    rw [if_pos hnil, hnil]
    rfl
  · unfold Matcher.excluded
    rw [new_excludePatternsForWalk hnil, Option.map_map, Option.map_map]
    congr 1
    funext ps
    exact matches_append_exceptions ps _ path

theorem covers_requestedInputs_iff :
    (requestedInputs (inputsOfWalk walkMeta addedGlobs)).any (m.covers · path) = true ↔
      ∃ input ∈ inputsOfWalk walkMeta addedGlobs, path = input ∨ Below input path := by
  rw [List.any_eq_true]
  refine exists_congr fun input => ?_
  rw [inputsOfWalk, mem_requestedInputs]
  exact and_congr_right fun hinput =>
    m.plain_covers (plain_input (mem_requestedSyntheticDockerfilePaths hinput)) path

theorem excluded_input (h : path ∈ inputsOfWalk walkMeta addedGlobs) :
    m.excluded (excludePatternsForWalk walkMeta addedGlobs) path =
      (m.new walkMeta.excludedPatterns).map fun _ => false := by
  have hcovers : (requestedInputs (inputsOfWalk walkMeta addedGlobs)).any
      (m.covers · path) = true :=
    covers_requestedInputs_iff.mpr ⟨path, h, .inl rfl⟩
  rw [excluded_excludePatternsForWalk, hcovers, Matcher.excluded, Option.map_map]
  congr 1
  funext ps
  exact Bool.and_false _

end

/-! ## What the exceptions change -/

/-- The inputs asked for are not excluded, and nothing else changes. -/
structure Surgical (m : Matcher) (walkMeta : WalkMetadata) (addedGlobs : Option (List Bytes)) :
    Prop where
  accepted : (m.new (excludePatternsForWalk walkMeta addedGlobs)).isSome =
    (m.new walkMeta.excludedPatterns).isSome
  included : ∀ path ∈ inputsOfWalk walkMeta addedGlobs,
    m.excluded (excludePatternsForWalk walkMeta addedGlobs) path =
      (m.new walkMeta.excludedPatterns).map fun _ => false
  others : ∀ path, path ∉ inputsOfWalk walkMeta addedGlobs →
    (∀ input ∈ inputsOfWalk walkMeta addedGlobs, ¬ Below input path) →
      m.excluded (excludePatternsForWalk walkMeta addedGlobs) path =
        m.excluded walkMeta.excludedPatterns path
  empty : walkMeta.excludedPatterns = [] → ∀ path,
    m.excluded (excludePatternsForWalk walkMeta addedGlobs) path = some false

theorem excludePatternsForWalk_surgical (m : Matcher) (walkMeta : WalkMetadata)
    (addedGlobs : Option (List Bytes)) : Surgical m walkMeta addedGlobs := by
  refine ⟨?_, fun path hpath => excluded_input hpath, fun path hpath hbelow => ?_,
    fun hnil path => ?_⟩
  · by_cases hnil : walkMeta.excludedPatterns = []
    · unfold excludePatternsForWalk
      rw [if_pos hnil, hnil]
    · rw [new_excludePatternsForWalk hnil, Option.isSome_map]
  · have hcovers : (requestedInputs (inputsOfWalk walkMeta addedGlobs)).any (m.covers · path) =
        false := by
      rw [← Bool.not_eq_true, covers_requestedInputs_iff]
      rintro ⟨input, hinput, rfl | hinputBelow⟩
      · exact hpath hinput
      · exact hbelow input hinput hinputBelow
    rw [excluded_excludePatternsForWalk, hcovers]
    simp
  · unfold excludePatternsForWalk
    rw [if_pos hnil]
    rfl

end BuilderShim.Fssync
