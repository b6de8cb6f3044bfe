/-
  Build/States.lean --- the images that a Dockerfile starts from (resolveStates,
  pkg/build/frontend.go).

  One goroutine for each stage resolves the image of the stage and stores its state under
  a name made of the reference and the platform.  Then the images that files are copied
  from are resolved, one after another, and stored likewise.

  The name leaves out a tag `latest` and spells the platform in one way, the state does
  not: two stages may store different states under one name, and the one that does so
  last is kept.  What is given: how references, platforms and words are read, and what the
  host answers for a name and a platform.
-/
import BuilderShim.Build.MetaArgs
import BuilderShim.GoLib.Maps
import BuilderShim.GoLib.Strings

set_option autoImplicit false

namespace BuilderShim.Build

open BuilderShim.Maps

/-- `ocispecs.Platform` -/
structure Platform where
  architecture : Bytes
  os : Bytes
  osVersion : Bytes
  osFeatures : List Bytes
  variant : Bytes
  deriving DecidableEq

/-- `instructions.Stage`, with the `From` of every COPY among its commands. -/
structure Stage where
  name : Bytes
  baseName : Bytes
  platform : Bytes
  copyFrom : List Bytes
  deriving DecidableEq

/-- What a function answers that may fail with `reference.ErrObjectRequired`. -/
inductive Answer (α : Type) where
  | ok (a : α)
  | objectRequired
  | failed (err : Bytes)

/-- The functions that are given; an error is its text. -/
structure Given where
  Ref : Type
  /-- `ProcessWordWithMatches`, with the escape token of the Dockerfile -/
  expand : Bytes → Env → Except Bytes Bytes
  /-- `platforms.Parse` -/
  parsePlatform : Bytes → Except Bytes Platform
  /-- `platforms.Format` -/
  format : Platform → Bytes
  formatAll : Platform → Bytes
  normalize : Platform → Platform
  parseAnyReference : Bytes → Answer Ref
  refString : Ref → Bytes
  isDigested : Ref → Bool
  /-- `FamiliarString` of `ParseNormalizedNamed`, unless that is an error -/
  familiar : Bytes → Except Bytes Bytes
  /-- `json.Marshal` of an image config, as the metadata of a state -/
  marshal : Bytes → Bytes
  /-- `strings.EqualFold` of two names -/
  sameName : Bytes → Bytes → Bool
  /-- whether `strconv.Atoi` succeeds -/
  isNumber : Bytes → Bool
  /-- the digest and the config of an image, as `ResolveImageConfig` returns them -/
  host : Bytes → Platform → Answer (Bytes × Bytes)

/-- The build options that are read; `buildPlatform` is the first of `BuildPlatforms`. -/
structure StageOpts where
  buildPlatform : Platform
  buildArgs : Env
  target : Bytes

/-- `llb.OCILayout(fqdn, ...).Platform(platform)` -/
structure LLBState where
  fqdn : Bytes
  platform : Platform
  deriving DecidableEq

structure StateMeta where
  state : LLBState
  imgMeta : Bytes
  deriving DecidableEq

/-- `map[string]stateMeta`, by what is found under a key. -/
abbrev States : Type := Bytes → Option StateMeta

section

variable (g : Given)

/-! ## One image -/

/-- `resolvedImageState` -/
def resolvedImageState (ref : g.Ref) (imageDigest image : Bytes) (platform : Platform) :
    Except Bytes (Bytes × StateMeta) :=
  let fqdn :=
    if g.isDigested ref then g.refString ref else g.refString ref ++ lit "@" ++ imageDigest
  match g.familiar (g.refString ref) with
  | .error err => .error (lit "invalid context name " ++ g.refString ref ++ lit " " ++ err)
  | .ok familiar =>
      let name := Strings.trimSuffix familiar (lit ":latest") ++ lit "::" ++
        g.formatAll (g.normalize platform)
      .ok (name, ⟨⟨fqdn, platform⟩, g.marshal image⟩)

/-- `sourceStateResolver.resolve`: what it stores in the map, if anything. -/
def resolve (name : Bytes) (platform : Platform) :
    Except Bytes (Option (Bytes × StateMeta)) :=
  if Strings.equalFold name (lit "scratch") || Strings.equalFold name (lit "context") then .ok none
  else
    match g.parseAnyReference name with
    | .objectRequired => .ok none
    | .failed _ => .error (lit "invalid ref: " ++ name)
    | .ok ref =>
        match g.host name platform with
        | .objectRequired => .ok none
        | .failed err => .error err
        | .ok (digest, image) =>
            if digest = [] then .ok none
            else (resolvedImageState g ref digest image platform).map some

/-! ## The stages -/

/-- The arguments that are always there. -/
def platformArgs (buildPlatform targetPlatform : Platform) (target : Bytes) :
    List (Bytes × Bytes) :=
  [(lit "BUILDPLATFORM", g.format buildPlatform),
    (lit "BUILDOS", buildPlatform.os),
    (lit "BUILDOSVERSION", buildPlatform.osVersion),
    (lit "BUILDARCH", buildPlatform.architecture),
    (lit "BUILDVARIANT", buildPlatform.variant),
    (lit "TARGETPLATFORM", g.formatAll targetPlatform),
    (lit "TARGETOS", targetPlatform.os),
    (lit "TARGETOSVERSION", targetPlatform.osVersion),
    (lit "TARGETARCH", targetPlatform.architecture),
    (lit "TARGETVARIANT", targetPlatform.variant),
    (lit "TARGETSTAGE", target)]

def globalArgs (buildPlatform targetPlatform : Platform) (buildArgs : Env) (target : Bytes) : Env :=
  let target := if target = [] then lit "default" else target
  fun key => (buildArgs key).or (lastWrite (platformArgs g buildPlatform targetPlatform target) key)

def resolvedStagePlatform (stage : Stage) (global : Env) (fallback : Platform) :
    Except Bytes Platform :=
  if stage.platform = [] then .ok fallback
  else
    match g.expand stage.platform global with
    | .error err => .error (lit "invalid platform for stage[" ++ stage.baseName ++ lit "]: " ++ err)
    | .ok value =>
        match g.parsePlatform value with
        | .error err =>
            .error (lit "invalid platform for stage[" ++ stage.baseName ++ lit "]: " ++ err)
        | .ok parsed => .ok parsed

/-- `instructions.HasStage`: the first stage of that name. -/
def hasStage (stages : List Stage) (name : Bytes) : Option Nat :=
  stages.findIdx? fun stage => g.sameName stage.name name

/-- `resolveDockerfileStage`: what the goroutine of a stage stores in the map. -/
def resolveDockerfileStage (b : StageOpts) (stages : List Stage) (platform : Platform)
    (stage : Stage) (index : Nat) : Except Bytes (Option (Bytes × StateMeta)) :=
  let global := globalArgs g b.buildPlatform platform b.buildArgs b.target
  match g.expand stage.baseName global with
  | .error err => .error (lit "invalid arg for stage[" ++ stage.baseName ++ lit "]: " ++ err)
  | .ok baseName =>
      match resolvedStagePlatform g stage global platform with
      | .error e => .error e
      | .ok stagePlatform =>
          if (hasStage g stages baseName).any (· < index) then .ok none
          else resolve g baseName stagePlatform

/-- Store what was resolved. -/
def store (states : States) : Option (Bytes × StateMeta) → States
  | none => states
  | some (key, stateMeta) => Function.update states key (some stateMeta)

/-- What the goroutines leave behind: the map, and the errors in the channel.  A goroutine does one
thing that others see, it writes to the map under the mutex or it sends its error; the order is that
in which they do it. -/
def finishStages (b : StageOpts) (stages : List Stage) (platform : Platform) :
    List (Stage × Nat) → States × List Bytes → States × List Bytes
  | [], shared => shared
  | (stage, index) :: order, (states, errCh) =>
      finishStages b stages platform order
        (match resolveDockerfileStage g b stages platform stage index with
        | .error e => (states, errCh ++ [e])
        | .ok resolved => (store states resolved, errCh))

/-- `resolveDockerfileStages` -/
def resolveDockerfileStages (b : StageOpts) (stages : List Stage) (platform : Platform)
    (order : List (Stage × Nat)) : Except Bytes States :=
  match finishStages g b stages platform order (fun _ => none, []) with
  | (_, e :: _) => .error e
  | (states, []) => .ok states

/-! ## The images that files are copied from -/

/-- The loop of `preseedCopyFromSources`. -/
def preseedLoop (stages : List Stage) (platform : Platform) :
    List Bytes → States → Except Bytes States
  | [], states => .ok states
  | source :: sources, states =>
      if source = [] ∨ g.isNumber source ∨ (hasStage g stages source).isSome then
        preseedLoop stages platform sources states
      else
        match resolve g source platform with
        | .error e => .error e
        | .ok resolved => preseedLoop stages platform sources (store states resolved)

def preseedCopyFromSources (stages : List Stage) (platform : Platform) (states : States) :
    Except Bytes States :=
  preseedLoop g stages platform (stages.flatMap Stage.copyFrom) states

/-- `resolveStates`, behind the parser, when the goroutines finish in this order. -/
def resolveStates (b : StageOpts) (stages : List Stage) (platform : Platform)
    (order : List (Stage × Nat)) : Except Bytes States :=
  match resolveDockerfileStages g b stages platform order with
  | .error e => .error e
  | .ok states => preseedCopyFromSources g stages platform states

/-! ## Scheduling -/

/-- Both fail, or both make the same map. -/
def SameOutcome : Except Bytes States → Except Bytes States → Prop
  | .ok states, .ok states' => states = states'
  | .error _, .error _ => True
  | _, _ => False

/-- The map, and whether it is made at all, does not depend on the order in which the goroutines
finish. -/
def SchedulingFree (b : StageOpts) (stages : List Stage) (platform : Platform) : Prop :=
  ∀ order order' : List (Stage × Nat), order.Perm stages.zipIdx → order'.Perm stages.zipIdx →
    SameOutcome (resolveStates g b stages platform order)
      (resolveStates g b stages platform order')

/-- A goroutine stores this in the map. -/
def StageStores (b : StageOpts) (stages : List Stage) (platform : Platform) (key : Bytes)
    (stateMeta : StateMeta) : Prop :=
  ∃ s ∈ stages.zipIdx,
    resolveDockerfileStage g b stages platform s.1 s.2 = .ok (some (key, stateMeta))

/-- The `From` of a COPY that is neither a number nor the name of a stage. -/
def IsImage (stages : List Stage) (source : Bytes) : Prop :=
  source ≠ [] ∧ g.isNumber source = false ∧ hasStage g stages source = none

/-- An image that files are copied from. -/
def CopySource (stages : List Stage) (source : Bytes) : Prop :=
  source ∈ stages.flatMap Stage.copyFrom ∧ IsImage g stages source

/-- Some image cannot be resolved. -/
def Fails (b : StageOpts) (stages : List Stage) (platform : Platform) : Prop :=
  (∃ s ∈ stages.zipIdx, ∃ e, resolveDockerfileStage g b stages platform s.1 s.2 = .error e) ∨
    ∃ source, CopySource g stages source ∧ ∃ e, resolve g source platform = .error e

/-- Stages that meet under one name store one state, unless an image that files are copied from is
stored there in the end. -/
def StagesAgree (b : StageOpts) (stages : List Stage) (platform : Platform) : Prop :=
  ∀ key stateMeta stateMeta', StageStores g b stages platform key stateMeta →
    StageStores g b stages platform key stateMeta' →
    (∀ source final, CopySource g stages source →
      resolve g source platform ≠ .ok (some (key, final))) →
    stateMeta = stateMeta'

end

/-! ## The writes of the goroutines -/

section

variable {g : Given} {b : StageOpts} {stages : List Stage} {platform : Platform}

/-- What comes into the map when an image was resolved, or was not. -/
def stored (outcome : Except Bytes (Option (Bytes × StateMeta))) : Option (Bytes × StateMeta) :=
  match outcome with
  | .error _ => none
  | .ok resolved => resolved

theorem stored_eq_some {outcome : Except Bytes (Option (Bytes × StateMeta))}
    {write : Bytes × StateMeta} : stored outcome = some write ↔ outcome = .ok (some write) := by
  cases outcome with
  | error e =>
      constructor
      · intro h
        cases h
      · intro h
        cases h
  | ok resolved => exact ⟨congrArg _, Except.ok.inj⟩

/-- What a goroutine stores, if it stores something. -/
def stageWrite (g : Given) (b : StageOpts) (stages : List Stage) (platform : Platform)
    (s : Stage × Nat) : Option (Bytes × StateMeta) :=
  stored (resolveDockerfileStage g b stages platform s.1 s.2)

/-- The error of a goroutine, if there is one. -/
def stageError (g : Given) (b : StageOpts) (stages : List Stage) (platform : Platform)
    (s : Stage × Nat) : Option Bytes :=
  match resolveDockerfileStage g b stages platform s.1 s.2 with
  | .error e => some e
  | .ok _ => none

/-- A map after some writes. -/
def written (writes : List (Bytes × StateMeta)) (states : States) : States := fun key =>
  (lastWrite writes key).or (states key)

theorem written_nil (states : States) : written [] states = states := rfl

theorem written_append (writes writes' : List (Bytes × StateMeta)) (states : States) :
    written (writes ++ writes') states = written writes' (written writes states) := by
  funext key
  unfold written
  rw [lastWrite_append, Option.or_assoc]

theorem store_eq (resolved : Option (Bytes × StateMeta)) (states : States) :
    store states resolved = written resolved.toList states := by
  cases resolved with
  | none => rfl
  | some write =>
      funext key
      obtain ⟨key', stateMeta⟩ := write
      unfold store written
      dsimp only
      rw [Option.toList_some, lastWrite_single]
      by_cases h : key = key'
      · subst h
        rw [Function.update_self, if_pos rfl, Option.some_or]
      · rw [Function.update_of_ne h, if_neg (Ne.symm h), Option.none_or]

/-- The goroutines add their writes to the map and their errors to the channel. -/
theorem finishStages_eq (order : List (Stage × Nat)) (shared : States × List Bytes) :
    finishStages g b stages platform order shared =
      (written (order.filterMap (stageWrite g b stages platform)) shared.1,
        shared.2 ++ order.filterMap (stageError g b stages platform)) := by
  induction order generalizing shared with
  | nil => rw [List.filterMap_nil, List.filterMap_nil, List.append_nil, written_nil]; rfl
  | cons s order ih =>
      obtain ⟨stage, index⟩ := s
      obtain ⟨states, errCh⟩ := shared
      rw [finishStages, ih, List.filterMap_cons, List.filterMap_cons]
      unfold stageWrite stageError stored
      dsimp only
      cases resolveDockerfileStage g b stages platform stage index with
      | error e =>
          dsimp only
          rw [List.append_assoc, List.singleton_append]
      | ok resolved =>
          dsimp only
          rw [store_eq]
          cases resolved with
          | none => rfl
          | some write =>
              dsimp only
              rw [Option.toList_some, ← written_append, List.singleton_append]

variable {order : List (Stage × Nat)} {e source : Bytes}

theorem mem_stageWrites (hperm : order.Perm stages.zipIdx) (key : Bytes) (stateMeta : StateMeta) :
    (key, stateMeta) ∈ order.filterMap (stageWrite g b stages platform) ↔
      StageStores g b stages platform key stateMeta := by
  rw [(hperm.filterMap _).mem_iff, List.mem_filterMap]
  exact exists_congr fun s => and_congr_right fun _ => stored_eq_some

theorem stageError_eq_some {s : Stage × Nat} :
    stageError g b stages platform s = some e ↔
      resolveDockerfileStage g b stages platform s.1 s.2 = .error e := by
  unfold stageError
  cases resolveDockerfileStage g b stages platform s.1 s.2 with
  | error e' => exact ⟨fun h => congrArg _ (Option.some.inj h),
    fun h => congrArg _ (Except.error.inj h)⟩
  | ok resolved => exact ⟨nofun, nofun⟩

/-- A goroutine that fails makes the stages fail, whenever it does so. -/
theorem resolveDockerfileStages_error {s : Stage × Nat} (hs : s ∈ order)
    (he : resolveDockerfileStage g b stages platform s.1 s.2 = .error e) :
    ∃ e', resolveDockerfileStages g b stages platform order = .error e' := by
  have hmem : e ∈ order.filterMap (stageError g b stages platform) :=
    List.mem_filterMap.mpr ⟨s, hs, stageError_eq_some.mpr he⟩
  unfold resolveDockerfileStages
  rw [finishStages_eq, List.nil_append]
  cases herrors : order.filterMap (stageError g b stages platform) with
  | nil =>
      rw [herrors] at hmem
      cases hmem
  | cons e' errors => exact ⟨e', rfl⟩

theorem resolveDockerfileStages_ok
    (hok : ∀ s ∈ order, ∀ e, resolveDockerfileStage g b stages platform s.1 s.2 ≠ .error e) :
    resolveDockerfileStages g b stages platform order =
      .ok (written (order.filterMap (stageWrite g b stages platform)) fun _ => none) := by
  have hnil : order.filterMap (stageError g b stages platform) = [] := by
    refine List.filterMap_eq_nil_iff.mpr fun s hs => Option.eq_none_iff_forall_ne_some.mpr ?_
    intro e he
    exact hok s hs e (stageError_eq_some.mp he)
  unfold resolveDockerfileStages
  rw [finishStages_eq, List.nil_append, hnil]

/-! ## The writes of the copies -/

theorem preseedLoop_skip (h : ¬IsImage g stages source) (sources : List Bytes) (states : States) :
    preseedLoop g stages platform (source :: sources) states =
      preseedLoop g stages platform sources states := by
  rw [preseedLoop, if_pos]
  by_contra hnot
  obtain ⟨hempty, hnumber, hstage⟩ := not_or.mp hnot |>.imp_right not_or.mp
  exact h ⟨hempty, Bool.eq_false_iff.mpr hnumber, Option.not_isSome_iff_eq_none.mp hstage⟩

theorem preseedLoop_image (h : IsImage g stages source) (sources : List Bytes) (states : States) :
    preseedLoop g stages platform (source :: sources) states =
      match resolve g source platform with
      | .error e => .error e
      | .ok resolved => preseedLoop g stages platform sources (store states resolved) := by
  obtain ⟨hempty, hnumber, hstage⟩ := h
  rw [preseedLoop, if_neg]
  simp [hempty, hnumber, hstage]

/-- An image that cannot be resolved stops the loop, if nothing did before. -/
theorem preseedLoop_error {sources : List Bytes} (hmem : source ∈ sources)
    (himage : IsImage g stages source) (he : resolve g source platform = .error e)
    (states : States) : ∃ e', preseedLoop g stages platform sources states = .error e' := by
  induction sources generalizing states with
  | nil => cases hmem
  | cons head sources ih =>
      by_cases hhead : IsImage g stages head
      · rw [preseedLoop_image hhead]
        cases hresolve : resolve g head platform with
        | error e' => exact ⟨e', rfl⟩
        | ok resolved =>
            rcases List.mem_cons.mp hmem with rfl | htail
            · rw [he] at hresolve
              cases hresolve
            · exact ih htail _
      · rw [preseedLoop_skip hhead]
        rcases List.mem_cons.mp hmem with rfl | htail
        · exact absurd himage hhead
        · exact ih htail states

instance (source : Bytes) : Decidable (IsImage g stages source) :=
  inferInstanceAs (Decidable (_ ∧ _))

/-- What the loop stores for a COPY, if nothing stops it. -/
def copyWrite (g : Given) (stages : List Stage) (platform : Platform) (source : Bytes) :
    Option (Bytes × StateMeta) :=
  if IsImage g stages source then stored (resolve g source platform) else none

theorem copyWrite_eq_some {write : Bytes × StateMeta} :
    copyWrite g stages platform source = some write ↔
      IsImage g stages source ∧ resolve g source platform = .ok (some write) := by
  unfold copyWrite
  by_cases himage : IsImage g stages source
  · rw [if_pos himage, stored_eq_some]
    exact (and_iff_right himage).symm
  · rw [if_neg himage]
    exact iff_of_false (Option.some_ne_none write).symm fun h => himage h.1

theorem preseedLoop_ok {sources : List Bytes}
    (hok : ∀ source ∈ sources, IsImage g stages source →
      ∀ e, resolve g source platform ≠ .error e) (states : States) :
    preseedLoop g stages platform sources states =
      .ok (written (sources.filterMap (copyWrite g stages platform)) states) := by
  induction sources generalizing states with
  | nil => rfl
  | cons head sources ih =>
      have htail := ih fun source hsource => hok source (List.mem_cons_of_mem head hsource)
      rw [List.filterMap_cons]
      unfold copyWrite
      by_cases hhead : IsImage g stages head
      · rw [preseedLoop_image hhead, if_pos hhead]
        cases hresolve : resolve g head platform with
        | error e => exact absurd hresolve (hok head List.mem_cons_self hhead e)
        | ok resolved =>
            dsimp only
            rw [htail, store_eq, ← written_append]
            cases resolved with
            | none => rfl
            | some write => rfl
      · rw [preseedLoop_skip hhead, if_neg hhead]
        exact htail states

/-! ## Both together -/

theorem resolveStates_error (hfails : Fails g b stages platform)
    (hperm : order.Perm stages.zipIdx) :
    ∃ e, resolveStates g b stages platform order = .error e := by
  unfold resolveStates
  rcases hfails with ⟨s, hs, e, he⟩ | ⟨source, ⟨hmem, himage⟩, e, he⟩
  · obtain ⟨e', he'⟩ := resolveDockerfileStages_error (hperm.mem_iff.mpr hs) he
    rw [he']
    exact ⟨e', rfl⟩
  · cases resolveDockerfileStages g b stages platform order with
    | error e' => exact ⟨e', rfl⟩
    | ok states => exact preseedLoop_error hmem himage he states

/-- The writes of the copies follow those of the stages. -/
theorem resolveStates_ok (hfails : ¬Fails g b stages platform) (hperm : order.Perm stages.zipIdx) :
    resolveStates g b stages platform order =
      .ok (written ((stages.flatMap Stage.copyFrom).filterMap (copyWrite g stages platform))
        (written (order.filterMap (stageWrite g b stages platform)) fun _ => none)) := by
  have hstages : ∀ s ∈ order, ∀ e,
      resolveDockerfileStage g b stages platform s.1 s.2 ≠ .error e := by
    intro s hs e he
    exact hfails (.inl ⟨s, hperm.mem_iff.mp hs, e, he⟩)
  have hcopies : ∀ source ∈ stages.flatMap Stage.copyFrom, IsImage g stages source →
      ∀ e, resolve g source platform ≠ .error e := by
    intro source hmem himage e he
    exact hfails (.inr ⟨source, ⟨hmem, himage⟩, e, he⟩)
  unfold resolveStates
  rw [resolveDockerfileStages_ok hstages]
  exact preseedLoop_ok hcopies _

/-- A key that no copy writes to is left as the stages have it. -/
theorem copyWrites_lastWrite_eq_none {key : Bytes}
    (h : ∀ source final, CopySource g stages source →
      resolve g source platform ≠ .ok (some (key, final))) :
    lastWrite ((stages.flatMap Stage.copyFrom).filterMap (copyWrite g stages platform)) key =
      none := by
  refine lastWrite_eq_none fun final hfinal => ?_
  obtain ⟨source, hmem, hwrite⟩ := List.mem_filterMap.mp hfinal
  obtain ⟨himage, hresolve⟩ := copyWrite_eq_some.mp hwrite
  exact h source final ⟨hmem, himage⟩ hresolve

/-- Any goroutine may be the last. -/
theorem exists_last {key : Bytes} {stateMeta : StateMeta}
    (h : StageStores g b stages platform key stateMeta) :
    ∃ order : List (Stage × Nat), order.Perm stages.zipIdx ∧
      lastWrite (order.filterMap (stageWrite g b stages platform)) key = some stateMeta := by
  obtain ⟨s, hs, hresolve⟩ := h
  have hwrite : stageWrite g b stages platform s = some (key, stateMeta) :=
    stored_eq_some.mpr hresolve
  refine ⟨stages.zipIdx.erase s ++ [s], ?_, ?_⟩
  · exact (List.perm_append_singleton s _).trans (List.perm_cons_erase hs).symm
  · rw [List.filterMap_append, List.filterMap_cons_some hwrite, List.filterMap_nil,
      lastWrite_append, lastWrite_single, if_pos rfl, Option.some_or]

theorem SchedulingFree.stagesAgree (h : SchedulingFree g b stages platform)
    (hfails : ¬Fails g b stages platform) : StagesAgree g b stages platform := by
  intro key stateMeta stateMeta' hstores hstores' huncovered
  obtain ⟨order, hperm, hlast⟩ := exists_last hstores
  obtain ⟨order', hperm', hlast'⟩ := exists_last hstores'
  have hsame := h order order' hperm hperm'
  rw [resolveStates_ok hfails hperm, resolveStates_ok hfails hperm'] at hsame
  have hkey := congrFun hsame key
  unfold written at hkey
  rw [copyWrites_lastWrite_eq_none huncovered, Option.none_or, Option.none_or, hlast, hlast']
    at hkey
  exact Option.some.inj hkey

theorem StagesAgree.schedulingFree (h : StagesAgree g b stages platform)
    (hfails : ¬Fails g b stages platform) : SchedulingFree g b stages platform := by
  intro order order' hperm hperm'
  rw [resolveStates_ok hfails hperm, resolveStates_ok hfails hperm']
  funext key
  unfold written
  cases hcopies : lastWrite ((stages.flatMap Stage.copyFrom).filterMap
      (copyWrite g stages platform)) key with
  | some final => rfl
  | none =>
      -- no copy writes to the key, so the stages that do so agree
      have huncovered : ∀ source final, CopySource g stages source →
          resolve g source platform ≠ .ok (some (key, final)) := by
        intro source final hsource hresolve
        have hmem := List.mem_filterMap.mpr
          ⟨source, hsource.1, copyWrite_eq_some.mpr ⟨hsource.2, hresolve⟩⟩
        obtain ⟨final', hfinal'⟩ := lastWrite_isSome hmem
        rw [hcopies] at hfinal'
        cases hfinal'
      have hagree : ∀ v v', (key, v) ∈ order.filterMap (stageWrite g b stages platform) →
          (key, v') ∈ order.filterMap (stageWrite g b stages platform) → v = v' := by
        intro v v' hv hv'
        exact h key v v' ((mem_stageWrites hperm key v).mp hv)
          ((mem_stageWrites hperm key v').mp hv') huncovered
      rw [lastWrite_perm ((hperm.trans hperm'.symm).filterMap _) hagree]

/-! ### The images of the stages -/

/-- An image as it is resolved for a platform. -/
structure Image (g : Given) where
  ref : g.Ref
  familiar : Bytes
  digest : Bytes
  config : Bytes
  platform : Platform

/-- The name without its default tag, and the platform. -/
def Image.key (image : Image g) : Bytes :=
  Strings.trimSuffix image.familiar (lit ":latest") ++ lit "::" ++
    g.formatAll (g.normalize image.platform)

def Image.fqdn (image : Image g) : Bytes :=
  if g.isDigested image.ref then g.refString image.ref
  else g.refString image.ref ++ lit "@" ++ image.digest

/-- It is what the name stands for. -/
structure Image.Of (image : Image g) (name : Bytes) : Prop where
  named : (Strings.equalFold name (lit "scratch") || Strings.equalFold name (lit "context")) = false
  ref : g.parseAnyReference name = .ok image.ref
  host : g.host name image.platform = .ok (image.digest, image.config)
  digest : image.digest ≠ []
  familiar : g.familiar (g.refString image.ref) = .ok image.familiar

theorem resolve_eq_some {name key : Bytes} {stateMeta : StateMeta} :
    resolve g name platform = .ok (some (key, stateMeta)) ↔
      ∃ image : Image g, image.Of name ∧ image.platform = platform ∧ image.key = key ∧
        ⟨⟨image.fqdn, platform⟩, g.marshal image.config⟩ = stateMeta := by
  constructor
  · intro h
    unfold resolve resolvedImageState at h
    split at h
    · cases h
    rename_i hnamed
    split at h
    · cases h
    · cases h
    rename_i ref href
    split at h
    · cases h
    · cases h
    rename_i digest config hhost
    split at h
    · cases h
    rename_i hdigest
    cases hfamiliar : g.familiar (g.refString ref) with
    | error e =>
        rw [hfamiliar] at h
        cases h
    | ok familiar =>
        rw [hfamiliar] at h
        cases h
        exact ⟨⟨ref, familiar, digest, config, platform⟩,
          ⟨Bool.eq_false_iff.mpr hnamed, href, hhost, hdigest, hfamiliar⟩, rfl, rfl, rfl⟩
  · rintro ⟨image, himage, rfl, rfl, rfl⟩
    unfold resolve resolvedImageState
    rw [if_neg (Bool.eq_false_iff.mp himage.named), himage.ref]
    dsimp only
    rw [himage.host]
    dsimp only
    rw [if_neg himage.digest, himage.familiar]
    rfl

/-- A stage starts from the image. -/
def StageImage (b : StageOpts) (stages : List Stage) (platform : Platform) (image : Image g) :
    Prop :=
  let global := globalArgs g b.buildPlatform platform b.buildArgs b.target
  ∃ s ∈ stages.zipIdx, ∃ name, g.expand s.1.baseName global = .ok name ∧
    resolvedStagePlatform g s.1 global platform = .ok image.platform ∧
    (hasStage g stages name).any (· < s.2) = false ∧ image.Of name

theorem stageStores_iff {key : Bytes} {stateMeta : StateMeta} :
    StageStores g b stages platform key stateMeta ↔
      ∃ image : Image g, StageImage b stages platform image ∧ image.key = key ∧
        ⟨⟨image.fqdn, image.platform⟩, g.marshal image.config⟩ = stateMeta := by
  constructor
  · rintro ⟨s, hs, h⟩
    unfold resolveDockerfileStage at h
    dsimp only at h
    split at h
    · cases h
    rename_i name hname
    split at h
    · cases h
    rename_i stagePlatform hplatform
    split at h
    · cases h
    rename_i hearlier
    obtain ⟨image, himage, rfl, hkey, hstate⟩ := resolve_eq_some.mp h
    exact ⟨image, ⟨s, hs, name, hname, hplatform, Bool.eq_false_iff.mpr hearlier, himage⟩, hkey,
      hstate⟩
  · rintro ⟨image, ⟨s, hs, name, hname, hplatform, hearlier, himage⟩, hkey, hstate⟩
    refine ⟨s, hs, ?_⟩
    unfold resolveDockerfileStage
    dsimp only
    rw [hname]
    dsimp only
    rw [hplatform]
    dsimp only
    rw [if_neg (Bool.eq_false_iff.mp hearlier)]
    exact resolve_eq_some.mpr ⟨image, himage, rfl, hkey, hstate⟩

/-- The stages agree if images with one trimmed name and formatted platform have one reference with
digest, one platform and one config, unless that of a COPY has this name too. -/
theorem stagesAgree_iff :
    StagesAgree g b stages platform ↔
      ∀ image image' : Image g, StageImage b stages platform image →
        StageImage b stages platform image' → image.key = image'.key →
        (∀ source (copied : Image g), CopySource g stages source → copied.Of source →
          copied.platform = platform → copied.key ≠ image.key) →
        image.fqdn = image'.fqdn ∧ image.platform = image'.platform ∧
          g.marshal image.config = g.marshal image'.config := by
  constructor
  · intro h image image' himage himage' hkey hfree
    have hsame := h image.key _ _ (stageStores_iff.mpr ⟨image, himage, rfl, rfl⟩)
      (stageStores_iff.mpr ⟨image', himage', hkey.symm, rfl⟩) fun source final hsource hfinal => ?_
    · simpa [and_assoc] using hsame
    · obtain ⟨copied, hof, hplatform, hcopied, _⟩ := resolve_eq_some.mp hfinal
      exact hfree source copied hsource hof hplatform hcopied
  · intro h key stateMeta stateMeta' hstores hstores' hfree
    obtain ⟨image, himage, rfl, rfl⟩ := stageStores_iff.mp hstores
    obtain ⟨image', himage', hkey, rfl⟩ := stageStores_iff.mp hstores'
    obtain ⟨hfqdn, hplatform, hconfig⟩ := h image image' himage himage' hkey.symm
      fun source copied hsource hof hplatform hcopied => hfree source _ hsource
        (resolve_eq_some.mpr ⟨copied, hof, hplatform, hcopied, rfl⟩)
    rw [hfqdn, hplatform, hconfig]

/-- The order in which the goroutines come is of no account just when the build fails for its images
anyway, or no two stages store different states under a name that the copies leave alone. -/
theorem resolveStates_schedulingFree_iff (g : Given) (b : StageOpts) (stages : List Stage)
    (platform : Platform) :
    SchedulingFree g b stages platform ↔
      Fails g b stages platform ∨ StagesAgree g b stages platform := by
  by_cases hfails : Fails g b stages platform
  · refine ⟨fun _ => .inl hfails, fun _ order order' hperm hperm' => ?_⟩
    obtain ⟨e, he⟩ := resolveStates_error hfails hperm
    obtain ⟨e', he'⟩ := resolveStates_error hfails hperm'
    rw [he, he']
    trivial
  · constructor
    · exact fun h => .inr (h.stagesAgree hfails)
    · exact fun h => (h.resolve_left hfails).schedulingFree hfails

end

/-! ## One image under two spellings -/

def linuxAmd64 : Platform := ⟨lit "amd64", lit "linux", [], [], []⟩

/-- Words without variables, references of the default registry, and a host that has one image. -/
def dockerHub : Given where
  Ref := Bytes
  expand word _ := .ok word
  parsePlatform _ := .ok linuxAmd64
  format platform := platform.os ++ lit "/" ++ platform.architecture
  formatAll platform := platform.os ++ lit "/" ++ platform.architecture
  normalize := id
  parseAnyReference name := .ok (lit "docker.io/library/" ++ name)
  refString := id
  isDigested _ := false
  familiar ref := .ok (ref.drop (lit "docker.io/library/").length)
  marshal := id
  sameName := (· == ·)
  isNumber _ := false
  host _ _ := .ok (lit "sha256:1", lit "config")

def oneTarget : StageOpts := ⟨linuxAmd64, fun _ => none, []⟩

/-- `FROM alpine AS a` and `FROM alpine:latest AS b` -/
def twoSpellings : List Stage :=
  [⟨lit "a", lit "alpine", [], []⟩, ⟨lit "b", lit "alpine:latest", [], []⟩]

/-- Both stages store under `alpine::linux/amd64`, the one `docker.io/library/alpine@sha256:1`, the
other `docker.io/library/alpine:latest@sha256:1`. -/
theorem two_spellings_race : ¬SchedulingFree dockerHub oneTarget twoSpellings linuxAmd64 := by
  intro h
  have hsame := h twoSpellings.zipIdx twoSpellings.zipIdx.reverse (.refl _) (List.reverse_perm _)
  have hkey := congrFun hsame (lit "alpine::linux/amd64")
  revert hkey
  decide

end BuilderShim.Build
