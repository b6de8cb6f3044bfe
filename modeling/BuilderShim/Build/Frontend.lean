/-
  Build/Frontend.lean --- the frontend of a build (pkg/build/frontend.go).

  One goroutine for each platform resolves the images it is built from and has it
  solved; a further one waits for all of them.  They report to the frontend on two
  unbuffered channels, of which it receives once.

  What the functions that are called answer for a platform is given (`Answers`), and how
  often BuildKit's own functions call `Solve`: `dockerfileConvertOpt` has it read the
  Dockerfile, and `Dockerfile2LLB` the `.dockerignore`.  A build that is only checked starts
  no goroutine.

  A goroutine is a task: a worker with the point it has reached, or the waiter.  A
  send on an unbuffered channel is one step of the sender, possible while the
  frontend is at its `select`.
-/
import BuilderShim.Foundation.Bytes
import BuilderShim.Foundation.Tasks

set_option autoImplicit false

namespace BuilderShim.Build

open BuilderShim.Foundation

inductive BuildError where
  /-- `ErrNoBuildDirectives` -/
  | noBuildDirectives
  /-- "build check failed" -/
  | checkFailed
  | other (code : Nat)
  deriving DecidableEq, Repr

/-- A `gateway.Reference`, by its identity. -/
abbrev Ref : Type := Nat

/-- A function that calls `Solve` on the way: how often, and its error. -/
structure Phase where
  solves : Nat
  error : Option BuildError
  deriving DecidableEq

/-- What is answered on behalf of one platform; an error, where there is one. -/
structure Answers where
  resolveStates : Option BuildError
  dockerfileConvertOpt : Phase
  /-- `ReadEntrypoint` solves the Dockerfile -/
  readEntrypoint : dockerfileConvertOpt.error = none → 0 < dockerfileConvertOpt.solves
  dockerfile2LLB : Phase
  marshal : Option BuildError
  getPlatform : Option BuildError
  solve : Option BuildError
  singleRef : Except BuildError (Option Ref)
  /-- whether there is an image config -/
  image : Bool
  layerMarshal : Option BuildError
  layerSolve : Option BuildError
  layerSingleRef : Except BuildError Ref
  toState : Option BuildError
  imageJSON : Except BuildError Bytes
  deriving DecidableEq

/-- The end of `solvePlatform`, with a reference. -/
def Answers.finish (a : Answers) (ref : Ref) : Except BuildError (Ref × Bytes) :=
  match a.toState with
  | some e => .error e
  | none =>
      match a.imageJSON with
      | .error e => .error e
      | .ok cfgJSON => .ok (ref, cfgJSON)

/-- `solvePlatform` from its own `Solve` on: how often that is called, and what is returned. -/
def Answers.build (a : Answers) : Nat × Except BuildError (Ref × Bytes) :=
  match a.solve with
  | some e => (1, .error e)
  | none =>
      match a.singleRef with
      | .error e => (1, .error e)
      | .ok (some ref) => (1, a.finish ref)
      | .ok none =>
          -- a build of metadata only is given a layer
          if a.image = false then (1, .error .noBuildDirectives)
          else
            match a.layerMarshal with
            | some e => (1, .error e)
            | none =>
                match a.layerSolve with
                | some e => (2, .error e)
                | none =>
                    match a.layerSingleRef with
                    | .error e => (2, .error e)
                    | .ok ref => (2, a.finish ref)

/-- `solvePlatform`: how often `Solve` is called, and what is returned. -/
def solvePlatform (a : Answers) : Nat × Except BuildError (Ref × Bytes) :=
  match a.dockerfileConvertOpt.error with
  | some e => (a.dockerfileConvertOpt.solves, .error e)
  | none =>
      let solves := a.dockerfileConvertOpt.solves + a.dockerfile2LLB.solves
      match a.dockerfile2LLB.error <|> a.marshal <|> a.getPlatform with
      | some e => (solves, .error e)
      | none => (solves + a.build.1, a.build.2)

/-- Only a platform that fails before the Dockerfile is read does without `Solve`. -/
theorem solvePlatform_issues (a : Answers) :
    (solvePlatform a).1 = 0 ↔ a.dockerfileConvertOpt.solves = 0 := by
  unfold solvePlatform
  cases herr : a.dockerfileConvertOpt.error with
  | some e => exact Iff.rfl
  | none =>
      have hpos := a.readEntrypoint herr
      dsimp only
      split
      · dsimp only
        omega
      · dsimp only
        omega

/-- What is answered after `dockerfileConvertOpt` when a build is only checked. -/
structure CheckAnswers where
  dockerfileLint : Phase
  toResult : Option BuildError
  /-- whether the results have a warning or an error -/
  findings : Bool

/-- `checkBuild`: how often `Solve` is called, and the error. -/
def checkBuild (a : Answers) (check : CheckAnswers) : Nat × Option BuildError :=
  match a.resolveStates with
  | some e => (0, some e)
  | none =>
      match a.dockerfileConvertOpt.error with
      | some e => (a.dockerfileConvertOpt.solves, some e)
      | none =>
          (a.dockerfileConvertOpt.solves + check.dockerfileLint.solves,
            check.dockerfileLint.error <|> check.toResult <|>
              if check.findings then some .checkFailed else none)

section

variable {Platform : Type}

/-- A platform that is asked for, and what is answered for it. -/
structure Job (Platform : Type) where
  platform : Platform
  answers : Answers

def Job.Succeeds (job : Job Platform) : Prop :=
  job.answers.resolveStates = none ∧
    ∃ ref cfgJSON, (solvePlatform job.answers).2 = .ok (ref, cfgJSON)

/-- The goroutine of one platform. -/
inductive Worker where
  /-- `resolveStates` -/
  | start
  /-- `plErrCh <- err` after it -/
  | reportResolve (e : BuildError)
  /-- `solvePlatform` -/
  | solve
  /-- `plErrCh <- err` after it -/
  | reportSolve (e : BuildError)
  /-- `res.AddRef` -/
  | addRef (ref : Ref) (cfgJSON : Bytes)
  /-- `res.AddMeta` -/
  | addMeta (ref : Ref) (cfgJSON : Bytes)
  /-- `expPlatforms.Platforms[i] = ..` -/
  | setPlatform (ref : Ref) (cfgJSON : Bytes)
  /-- `plWG.Done()` has been called -/
  | done

/-- The goroutine that waits for the others. -/
inductive Waiter where
  /-- `plWG.Wait()` -/
  | waiting
  /-- `plDoneCh <- struct{}{}` -/
  | sending
  | ended

inductive Task (Platform : Type) where
  | worker (i : Nat) (job : Job Platform) (w : Worker)
  | waiter (w : Waiter)

/-- An entry of the list of platforms that are exported. -/
structure Exported (Platform : Type) where
  id : Bytes
  platform : Platform

/-- The result of the build: the references and the image configs by platform, and the
platforms in order; one that was not set is zero. -/
structure Result (Platform : Type) where
  refs : Bytes → Option Ref
  configs : Bytes → Option Bytes
  platforms : List (Option (Exported Platform))

/-- The frontend itself. -/
inductive Main (Platform : Type) where
  /-- at the `select` -/
  | selecting
  | failed (e : BuildError)
  | returned (res : Result Platform)

structure Shared (Platform : Type) where
  wg : Nat
  main : Main Platform
  res : Result Platform
  /-- the platforms that `Solve` was called for, for the statements below only -/
  issued : List Nat

/-- Who moves. -/
inductive Mover where
  | worker (i : Nat)
  | waiter

-- `FormatAll(Normalize(pl))`, under which a platform is put into the result
variable (plStr : Platform → Bytes)

/-- One step of one goroutine. -/
inductive FrontendStep : LocalStep (Shared Platform) (Task Platform) Mover
  | resolved {sh : Shared Platform} {i : Nat} {job : Job Platform}
      (h : job.answers.resolveStates = none) :
      FrontendStep sh (.worker i job .start) (.worker i) sh (.worker i job .solve) []
  | resolveFailed {sh : Shared Platform} {i : Nat} {job : Job Platform} {e : BuildError}
      (h : job.answers.resolveStates = some e) :
      FrontendStep sh (.worker i job .start) (.worker i) sh (.worker i job (.reportResolve e)) []
  | resolveReported {sh : Shared Platform} {i : Nat} {job : Job Platform} {e : BuildError}
      (h : sh.main = .selecting) :
      -- the goroutine does not return here
      FrontendStep sh (.worker i job (.reportResolve e)) (.worker i)
        { sh with main := .failed e } (.worker i job .solve) []
  | solved {sh : Shared Platform} {i : Nat} {job : Job Platform} {ref : Ref} {cfgJSON : Bytes}
      (h : (solvePlatform job.answers).2 = .ok (ref, cfgJSON)) :
      FrontendStep sh (.worker i job .solve) (.worker i)
        { sh with issued := sh.issued ++ List.replicate (solvePlatform job.answers).1 i }
        (.worker i job (.addRef ref cfgJSON)) []
  | solveFailed {sh : Shared Platform} {i : Nat} {job : Job Platform} {e : BuildError}
      (h : (solvePlatform job.answers).2 = .error e) :
      FrontendStep sh (.worker i job .solve) (.worker i)
        { sh with issued := sh.issued ++ List.replicate (solvePlatform job.answers).1 i }
        (.worker i job (.reportSolve e)) []
  | solveReported {sh : Shared Platform} {i : Nat} {job : Job Platform} {e : BuildError}
      (h : sh.main = .selecting) :
      FrontendStep sh (.worker i job (.reportSolve e)) (.worker i)
        { sh with main := .failed e, wg := sh.wg - 1 } (.worker i job .done) []
  | addRef {sh : Shared Platform} {i : Nat} {job : Job Platform} {ref : Ref} {cfgJSON : Bytes} :
      FrontendStep sh (.worker i job (.addRef ref cfgJSON)) (.worker i)
        { sh with res := { sh.res with
            refs := Function.update sh.res.refs (plStr job.platform) (some ref) } }
        (.worker i job (.addMeta ref cfgJSON)) []
  | addMeta {sh : Shared Platform} {i : Nat} {job : Job Platform} {ref : Ref} {cfgJSON : Bytes} :
      FrontendStep sh (.worker i job (.addMeta ref cfgJSON)) (.worker i)
        { sh with res := { sh.res with
            configs := Function.update sh.res.configs (plStr job.platform) (some cfgJSON) } }
        (.worker i job (.setPlatform ref cfgJSON)) []
  | setPlatform {sh : Shared Platform} {i : Nat} {job : Job Platform} {ref : Ref}
      {cfgJSON : Bytes} :
      FrontendStep sh (.worker i job (.setPlatform ref cfgJSON)) (.worker i)
        { sh with
          wg := sh.wg - 1
          res := { sh.res with
            platforms := sh.res.platforms.set i (some ⟨plStr job.platform, job.platform⟩) } }
        (.worker i job .done) []
  | waited {sh : Shared Platform} (h : sh.wg = 0) :
      FrontendStep sh (.waiter .waiting) .waiter sh (.waiter .sending) []
  | finished {sh : Shared Platform} (h : sh.main = .selecting) :
      FrontendStep sh (.waiter .sending) .waiter { sh with main := .returned sh.res }
        (.waiter .ended) []

/-- A build, or the check of one: that is about the first platform. -/
inductive FrontendCall (Platform : Type) where
  | build (jobs : List (Job Platform))
  | check (answers : CheckAnswers) (first : Job Platform) (others : List (Job Platform))

def FrontendCall.jobs : FrontendCall Platform → List (Job Platform)
  | .build jobs => jobs
  | .check _ first others => first :: others

/-- `frontend` when a check has returned: the result has no references. -/
def checked (outcome : Nat × Option BuildError) : Tasks (Shared Platform) (Task Platform) where
  shared :=
    { wg := 0
      main :=
        match outcome.2 with
        | some e => .failed e
        | none => .returned ⟨fun _ => none, fun _ => none, []⟩
      res := ⟨fun _ => none, fun _ => none, []⟩
      issued := List.replicate outcome.1 0 }
  tasks := []

/-- The frontend with all its goroutines started. -/
def startFrontend (jobs : List (Job Platform)) : Tasks (Shared Platform) (Task Platform) where
  shared :=
    { wg := jobs.length
      main := .selecting
      res := ⟨fun _ => none, fun _ => none, List.replicate jobs.length none⟩
      issued := [] }
  tasks := jobs.mapIdx (fun i job => .worker i job .start) ++ [.waiter .waiting]

def FrontendCall.start : FrontendCall Platform → Tasks (Shared Platform) (Task Platform)
  | .build jobs => startFrontend jobs
  | .check answers first _ => checked (checkBuild first.answers answers)

/-- The states of the frontend. -/
abbrev FrontendReach (s t : Tasks (Shared Platform) (Task Platform)) : Prop :=
  Reach (TaskStep (FrontendStep plStr)) (fun _ _ => True) s t

end

end BuilderShim.Build
