/-
  Build/Platforms.lean --- what the frontend returns, and what it leaves behind.

  A goroutine that could not resolve its images reports that and goes on to solve
  its platform all the same; and two platforms of one name share their place in the
  result.  Without either, the frontend is all or nothing.

  The frontend receives one report only.  Whoever has another to make after that
  waits for ever; if nobody does, it is the goroutine that waits for all of them.
-/
import BuilderShim.Build.Frontend

set_option autoImplicit false

namespace BuilderShim.Build

open BuilderShim.Foundation

section

variable {Platform : Type} (plStr : Platform → Bytes) (jobs : List (Job Platform))

/-! ## What one step can do -/

def Main.Failed (m : Main Platform) : Prop := ∃ e, m = .failed e

/-- Two platforms of one name have the same reference and the same config. -/
def Agree : Prop :=
  ∀ job ∈ jobs, ∀ job' ∈ jobs, plStr job.platform = plStr job'.platform →
    (solvePlatform job.answers).2 = (solvePlatform job'.answers).2

/-- Every platform is built, and no two of them get in each other's way. -/
def Harmless : Prop := (∀ job ∈ jobs, job.Succeeds) ∧ Agree plStr jobs

/-- The entry of a platform in the list of those exported. -/
def Job.exported (job : Job Platform) : Exported Platform := ⟨plStr job.platform, job.platform⟩

/-- What the result has for a platform. -/
structure Stored (res : Result Platform) (i : Nat) (job : Job Platform) (ref : Ref)
    (cfgJSON : Bytes) : Prop where
  ref : Harmless plStr jobs → res.refs (plStr job.platform) = some ref
  config : Harmless plStr jobs → res.configs (plStr job.platform) = some cfgJSON
  platform : res.platforms[i]? = some (some (job.exported plStr))

/-- Where a goroutine has got to, and what that says about its platform. -/
def TaskOk (sh : Shared Platform) : Task Platform → Prop
  | .worker i job w =>
      jobs[i]? = some job ∧
        match w with
        | .start => True
        | .reportResolve e => job.answers.resolveStates = some e
        | .solve => job.answers.resolveStates = none ∨ sh.main.Failed
        | .reportSolve e => (solvePlatform job.answers).2 = .error e
        | .addRef ref cfgJSON =>
            (job.answers.resolveStates = none ∨ sh.main.Failed) ∧
              (solvePlatform job.answers).2 = .ok (ref, cfgJSON)
        | .addMeta ref cfgJSON =>
            (job.answers.resolveStates = none ∨ sh.main.Failed) ∧
              (solvePlatform job.answers).2 = .ok (ref, cfgJSON) ∧
              (Harmless plStr jobs → sh.res.refs (plStr job.platform) = some ref)
        | .setPlatform ref cfgJSON =>
            (job.answers.resolveStates = none ∨ sh.main.Failed) ∧
              (solvePlatform job.answers).2 = .ok (ref, cfgJSON) ∧
              (Harmless plStr jobs → sh.res.refs (plStr job.platform) = some ref) ∧
              (Harmless plStr jobs → sh.res.configs (plStr job.platform) = some cfgJSON)
        | .done =>
            sh.main.Failed ∨
              (job.answers.resolveStates = none ∧
                ∃ ref cfgJSON, (solvePlatform job.answers).2 = .ok (ref, cfgJSON) ∧
                  Stored plStr jobs sh.res i job ref cfgJSON)
  | .waiter w =>
      match w with
      | .sending => sh.wg = 0
      | _ => True

/-- What a step of one goroutine keeps for the others. -/
structure Keeps (sh sh' : Shared Platform) : Prop where
  failed : sh.main.Failed → sh'.main.Failed
  wg : sh'.wg ≤ sh.wg
  ref : ∀ job ∈ jobs, ∀ ref cfgJSON, (solvePlatform job.answers).2 = .ok (ref, cfgJSON) →
    Harmless plStr jobs → sh.res.refs (plStr job.platform) = some ref →
    sh'.res.refs (plStr job.platform) = some ref
  config : ∀ job ∈ jobs, ∀ ref cfgJSON, (solvePlatform job.answers).2 = .ok (ref, cfgJSON) →
    Harmless plStr jobs → sh.res.configs (plStr job.platform) = some cfgJSON →
    sh'.res.configs (plStr job.platform) = some cfgJSON
  platform : ∀ (i : Nat) (job : Job Platform), jobs[i]? = some job →
    sh.res.platforms[i]? = some (some (job.exported plStr)) →
    sh'.res.platforms[i]? = some (some (job.exported plStr))

variable {plStr jobs}

variable {sh sh' : Shared Platform} {job : Job Platform} {e : Mover} {new : List (Task Platform)}
  {t t' : Task Platform} {i : Nat} {s : Tasks (Shared Platform) (Task Platform)}

/-- A step that leaves the result alone. -/
theorem Keeps.of_res (hres : sh'.res = sh.res) (hmain : sh.main.Failed → sh'.main.Failed)
    (hwg : sh'.wg ≤ sh.wg) :
    Keeps plStr jobs sh sh' where
  failed := hmain
  wg := hwg
  ref := fun _ _ _ _ _ _ h => by rwa [hres]
  config := fun _ _ _ _ _ _ h => by rwa [hres]
  platform := fun _ _ _ h => by rwa [hres]

theorem not_failed_of_selecting {m : Main Platform} (h : m = .selecting) : ¬ m.Failed := by
  rintro ⟨e, rfl⟩
  cases h

theorem Harmless.same (h : Harmless plStr jobs) {other : Job Platform} (hjob : job ∈ jobs)
    (hother : other ∈ jobs) (hkey : plStr other.platform = plStr job.platform) {ref ref' : Ref}
    {cfgJSON cfgJSON' : Bytes} (hsolve : (solvePlatform job.answers).2 = .ok (ref, cfgJSON))
    (hsolve' : (solvePlatform other.answers).2 = .ok (ref', cfgJSON')) :
    ref = ref' ∧ cfgJSON = cfgJSON' := by
  have := h.2 other hother job hjob hkey
  rw [hsolve, hsolve'] at this
  cases this
  exact ⟨rfl, rfl⟩

theorem FrontendStep.keeps (ht : TaskOk plStr jobs sh t)
    (h : FrontendStep plStr sh t e sh' t' new) : Keeps plStr jobs sh sh' := by
  cases h with
  | resolved _ => exact .of_res rfl id (Nat.le_refl _)
  | resolveFailed _ => exact .of_res rfl id (Nat.le_refl _)
  | resolveReported hsel =>
      exact .of_res rfl (fun hf => absurd hf (not_failed_of_selecting hsel)) (Nat.le_refl _)
  | solved _ => exact .of_res rfl id (Nat.le_refl _)
  | solveFailed _ => exact .of_res rfl id (Nat.le_refl _)
  | solveReported hsel =>
      exact .of_res rfl (fun hf => absurd hf (not_failed_of_selecting hsel)) (Nat.sub_le _ _)
  | waited _ => exact .of_res rfl id (Nat.le_refl _)
  | finished hsel =>
      exact .of_res rfl (fun hf => absurd hf (not_failed_of_selecting hsel)) (Nat.le_refl _)
  | @addRef _ i job ref cfgJSON =>
      obtain ⟨hjob, -, hsolve⟩ := ht
      refine ⟨id, Nat.le_refl _, ?_, fun _ _ _ _ _ _ h => h, fun _ _ _ h => h⟩
      intro other hother ref' cfgJSON' hsolve' hharm hset
      by_cases hkey : plStr other.platform = plStr job.platform
      · -- the other platform has the same name, hence the same reference
        obtain ⟨rfl, -⟩ := hharm.same (List.mem_of_getElem? hjob) hother hkey hsolve hsolve'
        simp only [hkey, Function.update_self]
      · simpa only [Function.update_of_ne hkey] using hset
  | @addMeta _ i job ref cfgJSON =>
      obtain ⟨hjob, -, hsolve, -⟩ := ht
      refine ⟨id, Nat.le_refl _, fun _ _ _ _ _ _ h => h, ?_, fun _ _ _ h => h⟩
      intro other hother ref' cfgJSON' hsolve' hharm hset
      by_cases hkey : plStr other.platform = plStr job.platform
      · obtain ⟨-, rfl⟩ := hharm.same (List.mem_of_getElem? hjob) hother hkey hsolve hsolve'
        simp only [hkey, Function.update_self]
      · simpa only [Function.update_of_ne hkey] using hset
  | @setPlatform _ i job ref cfgJSON =>
      obtain ⟨hjob, -⟩ := ht
      refine ⟨id, Nat.sub_le _ _, fun _ _ _ _ _ _ h => h, fun _ _ _ _ _ _ h => h, ?_⟩
      intro j other hother hset
      by_cases hij : i = j
      · subst hij
        obtain rfl : job = other := Option.some.inj (hjob.symm.trans hother)
        exact List.getElem?_set_self (List.getElem?_eq_some_iff.mp hset).1
      · simpa only [List.getElem?_set_ne hij] using hset

theorem TaskOk.of_keeps (hkeep : Keeps plStr jobs sh sh') (h : TaskOk plStr jobs sh t) :
    TaskOk plStr jobs sh' t := by
  cases t with
  | waiter w =>
      cases w with
      | waiting => trivial
      | ended => trivial
      | sending => exact Nat.eq_zero_of_le_zero (h ▸ hkeep.wg)
  | worker i job w =>
      obtain ⟨hjob, h⟩ := h
      have hmem := List.mem_of_getElem? hjob
      refine ⟨hjob, ?_⟩
      cases w with
      | start => trivial
      | reportResolve e => exact h
      | reportSolve e => exact h
      | solve => exact h.imp_right hkeep.failed
      | addRef ref cfgJSON => exact ⟨h.1.imp_right hkeep.failed, h.2⟩
      | addMeta ref cfgJSON =>
          obtain ⟨hclear, hsolve, href⟩ := h
          exact ⟨hclear.imp_right hkeep.failed, hsolve,
            fun hh => hkeep.ref job hmem ref cfgJSON hsolve hh (href hh)⟩
      | setPlatform ref cfgJSON =>
          obtain ⟨hclear, hsolve, href, hcfg⟩ := h
          exact ⟨hclear.imp_right hkeep.failed, hsolve,
            fun hh => hkeep.ref job hmem ref cfgJSON hsolve hh (href hh),
            fun hh => hkeep.config job hmem ref cfgJSON hsolve hh (hcfg hh)⟩
      | done =>
          rcases h with hf | ⟨hres, ref, cfgJSON, hsolve, hstored⟩
          · exact .inl (hkeep.failed hf)
          · exact .inr ⟨hres, ref, cfgJSON, hsolve,
              fun hh => hkeep.ref job hmem ref cfgJSON hsolve hh (hstored.ref hh),
              fun hh => hkeep.config job hmem ref cfgJSON hsolve hh (hstored.config hh),
              hkeep.platform i job hjob hstored.platform⟩

variable (jobs) in
/-- What holds of the shared state. -/
structure SharedOk (sh : Shared Platform) : Prop where
  length : sh.res.platforms.length = jobs.length
  issued : ∀ i ∈ sh.issued, ∃ job, jobs[i]? = some job ∧
    job.answers.dockerfileConvertOpt.solves ≠ 0
  failed : sh.main.Failed → ∃ job ∈ jobs, ¬ job.Succeeds

theorem SharedOk.issue (h : SharedOk jobs sh) (hjob : jobs[i]? = some job) :
    SharedOk jobs
      { sh with issued := sh.issued ++ List.replicate (solvePlatform job.answers).1 i } where
  length := h.length
  failed := h.failed
  issued := by
    intro j hj
    rcases List.mem_append.mp hj with hj | hj
    · exact h.issued j hj
    · obtain ⟨hpos, rfl⟩ := List.mem_replicate.mp hj
      exact ⟨job, hjob, (solvePlatform_issues _).not.mp hpos⟩

theorem not_succeeds_of_resolve {e : BuildError} (h : job.answers.resolveStates = some e) :
    ¬ job.Succeeds := by
  rintro ⟨hres, -⟩
  rw [h] at hres
  cases hres

theorem not_succeeds_of_solve {e : BuildError} (h : (solvePlatform job.answers).2 = .error e) :
    ¬ job.Succeeds := by
  rintro ⟨-, ref, cfgJSON, hsolve⟩
  rw [h] at hsolve
  cases hsolve

theorem FrontendStep.own (hsh : SharedOk jobs sh) (ht : TaskOk plStr jobs sh t)
    (h : FrontendStep plStr sh t e sh' t' new) :
    SharedOk jobs sh' ∧ TaskOk plStr jobs sh' t' ∧ ∀ u ∈ new, TaskOk plStr jobs sh' u := by
  have hnil := List.forall_mem_nil (TaskOk plStr jobs sh')
  cases h with
  | resolved hres => exact ⟨hsh, ⟨ht.1, .inl hres⟩, hnil⟩
  | resolveFailed hres => exact ⟨hsh, ⟨ht.1, hres⟩, hnil⟩
  | resolveReported hsel =>
      obtain ⟨hjob, hres⟩ := ht
      refine ⟨⟨hsh.length, hsh.issued, fun _ => ?_⟩, ⟨hjob, .inr ⟨_, rfl⟩⟩, hnil⟩
      exact ⟨_, List.mem_of_getElem? hjob, not_succeeds_of_resolve hres⟩
  | solved hsolve => exact ⟨hsh.issue ht.1, ⟨ht.1, ht.2, hsolve⟩, hnil⟩
  | solveFailed hsolve => exact ⟨hsh.issue ht.1, ⟨ht.1, hsolve⟩, hnil⟩
  | solveReported hsel =>
      obtain ⟨hjob, hsolve⟩ := ht
      refine ⟨⟨hsh.length, hsh.issued, fun _ => ?_⟩, ⟨hjob, .inl ⟨_, rfl⟩⟩, hnil⟩
      exact ⟨_, List.mem_of_getElem? hjob, not_succeeds_of_solve hsolve⟩
  | addRef =>
      obtain ⟨hjob, hclear, hsolve⟩ := ht
      exact ⟨⟨hsh.length, hsh.issued, hsh.failed⟩,
        ⟨hjob, hclear, hsolve, fun _ => Function.update_self ..⟩, hnil⟩
  | addMeta =>
      obtain ⟨hjob, hclear, hsolve, href⟩ := ht
      exact ⟨⟨hsh.length, hsh.issued, hsh.failed⟩,
        ⟨hjob, hclear, hsolve, href, fun _ => Function.update_self ..⟩, hnil⟩
  | setPlatform =>
      obtain ⟨hjob, hclear, hsolve, href, hcfg⟩ := ht
      refine ⟨⟨(List.length_set ..).trans hsh.length, hsh.issued, hsh.failed⟩, ⟨hjob, ?_⟩, hnil⟩
      rcases hclear with hres | hf
      · refine .inr ⟨hres, _, _, hsolve, href, hcfg, List.getElem?_set_self ?_⟩
        rw [hsh.length]
        exact (List.getElem?_eq_some_iff.mp hjob).1
      · exact .inl hf
  | waited hwg => exact ⟨hsh, hwg, hnil⟩
  | finished hsel =>
      refine ⟨⟨hsh.length, hsh.issued, ?_⟩, trivial, hnil⟩
      rintro ⟨e, he⟩
      cases he

/-! ## Every run -/

/-- A platform whose goroutine has not called `plWG.Done()`. -/
def Task.undone : Task Platform → Nat
  | .worker _ _ .done => 0
  | .worker _ _ _ => 1
  | .waiter _ => 0

/-- The waiter that has not reported. -/
def Task.unreported : Task Platform → Nat
  | .waiter .ended => 0
  | .waiter _ => 1
  | .worker _ _ _ => 0

/-- Whether the report of the waiter is still to come. -/
def Main.awaits : Main Platform → Nat
  | .returned _ => 0
  | _ => 1

/-- What a task is, apart from where it has got to. -/
def Task.which : Task Platform → Option Nat
  | .worker i _ _ => some i
  | .waiter _ => none

variable (plStr jobs)

/-- The result has what was asked for. -/
structure Delivers (res : Result Platform) : Prop where
  ref : ∀ job ∈ jobs, ∀ ref cfgJSON, (solvePlatform job.answers).2 = .ok (ref, cfgJSON) →
    res.refs (plStr job.platform) = some ref
  config : ∀ job ∈ jobs, ∀ ref cfgJSON, (solvePlatform job.answers).2 = .ok (ref, cfgJSON) →
    res.configs (plStr job.platform) = some cfgJSON
  platforms : res.platforms = jobs.map fun job => some (job.exported plStr)

structure FrontendOk (s : Tasks (Shared Platform) (Task Platform)) : Prop where
  all : s.All (SharedOk jobs) (TaskOk plStr jobs)
  wg : s.shared.wg = s.weight Task.undone
  awaits : s.shared.main.awaits = s.weight Task.unreported
  which : (List.range jobs.length).map some <+: s.tasks.map Task.which
  returned : ∀ res, s.shared.main = .returned res →
    (∀ job ∈ jobs, job.Succeeds) ∧ (Agree plStr jobs → Delivers plStr jobs res)

variable {plStr jobs}

theorem FrontendStep.undone (hle : t.undone ≤ sh.wg) (h : FrontendStep plStr sh t e sh' t' new) :
    sh'.wg + t.undone = sh.wg + t'.undone + (new.map Task.undone).sum := by
  cases h with
  | solveReported _ => exact Nat.sub_add_cancel hle
  | setPlatform => exact Nat.sub_add_cancel hle
  | _ => rfl

theorem FrontendStep.awaits (h : FrontendStep plStr sh t e sh' t' new) :
    sh'.main.awaits + t.unreported =
      sh.main.awaits + t'.unreported + (new.map Task.unreported).sum := by
  cases h with
  | resolveReported hsel => rw [hsel]; rfl
  | solveReported hsel => rw [hsel]; rfl
  | finished hsel => rw [hsel]; rfl
  | _ => rfl

theorem FrontendStep.which (h : FrontendStep plStr sh t e sh' t' new) :
    t'.which = t.which := by
  cases h <;> rfl

/-- The goroutine of every platform is there, and past its `plWG.Done()` if nobody is
waited for. -/
theorem FrontendOk.worker (hs : FrontendOk plStr jobs s) (hwg : s.shared.wg = 0)
    (hjob : jobs[i]? = some job) : Task.worker i job .done ∈ s.tasks := by
  have hi : some i ∈ s.tasks.map Task.which := by
    apply hs.which.subset
    apply List.mem_map_of_mem
    exact List.mem_range.mpr (List.getElem?_eq_some_iff.mp hjob).1
  obtain ⟨t, ht, hwhich⟩ := List.mem_map.mp hi
  cases t with
  | waiter w => cases hwhich
  | worker j job' w =>
      cases hwhich
      have hdone := Tasks.weight_eq_zero.mp (hs.wg.symm.trans hwg) _ ht
      obtain ⟨hjob', -⟩ := hs.all.task _ ht
      obtain rfl : job = job' := Option.some.inj (hjob.symm.trans hjob')
      cases w with
      | done => exact ht
      | _ => cases hdone

/-- What the waiter reports: every platform has been built, and has its place. -/
theorem FrontendOk.finished (hs : FrontendOk plStr jobs s) (hwg : s.shared.wg = 0)
    (hsel : s.shared.main = .selecting) :
    (∀ job ∈ jobs, job.Succeeds) ∧ (Agree plStr jobs → Delivers plStr jobs s.shared.res) := by
  have hdone : ∀ i job, jobs[i]? = some job → job.answers.resolveStates = none ∧
      ∃ ref cfgJSON, (solvePlatform job.answers).2 = .ok (ref, cfgJSON) ∧
        Stored plStr jobs s.shared.res i job ref cfgJSON := by
    intro i job hjob
    have hok := hs.all.task _ (hs.worker hwg hjob)
    exact hok.2.resolve_left (not_failed_of_selecting hsel)
  have hall : ∀ job ∈ jobs, job.Succeeds := by
    intro job hmem
    obtain ⟨i, hjob⟩ := List.mem_iff_getElem?.mp hmem
    obtain ⟨hres, ref, cfgJSON, hsolve, -⟩ := hdone i job hjob
    exact ⟨hres, ref, cfgJSON, hsolve⟩
  refine ⟨hall, fun hagree => ⟨?_, ?_, ?_⟩⟩
  · intro job hmem ref cfgJSON hsolve
    obtain ⟨i, hjob⟩ := List.mem_iff_getElem?.mp hmem
    obtain ⟨-, ref', cfgJSON', hsolve', hstored⟩ := hdone i job hjob
    cases hsolve.symm.trans hsolve'
    exact hstored.ref ⟨hall, hagree⟩
  · intro job hmem ref cfgJSON hsolve
    obtain ⟨i, hjob⟩ := List.mem_iff_getElem?.mp hmem
    obtain ⟨-, ref', cfgJSON', hsolve', hstored⟩ := hdone i job hjob
    cases hsolve.symm.trans hsolve'
    exact hstored.config ⟨hall, hagree⟩
  · apply List.ext_getElem?
    intro i
    rw [List.getElem?_map]
    cases hjob : jobs[i]? with
    | none =>
        rw [List.getElem?_eq_none_iff] at hjob
        apply List.getElem?_eq_none
        rwa [hs.all.shared.length]
    | some job =>
        obtain ⟨-, ref, cfgJSON, -, hstored⟩ := hdone i job hjob
        exact hstored.platform

/-- Only the waiter makes the frontend return a result. -/
theorem FrontendStep.returned {res : Result Platform} (h : FrontendStep plStr sh t e sh' t' new)
    (hret : sh'.main = .returned res) :
    sh.main = .returned res ∨
      (t = .waiter .sending ∧ sh.main = .selecting ∧ res = sh.res) := by
  cases h with
  | resolveReported _ => cases hret
  | solveReported _ => cases hret
  | finished hsel => exact .inr ⟨rfl, hsel, (Main.returned.inj hret).symm⟩
  | _ => exact .inl hret

theorem FrontendOk.step {s' : Tasks (Shared Platform) (Task Platform)}
    (hs : FrontendOk plStr jobs s) (hstep : TaskStep (FrontendStep plStr) s e s') :
    FrontendOk plStr jobs s' where
  all := hs.all.step hstep (fun hsh ht h => h.own hsh ht)
    (fun _ ht h hu => hu.of_keeps (h.keeps ht))
  wg := Tasks.weight_eq hstep hs.wg fun hle h => h.undone hle
  awaits := Tasks.weight_eq (g := fun sh => sh.main.awaits) hstep hs.awaits fun _ h => h.awaits
  which := hs.which.trans (hstep.map_grows fun h => h.which)
  returned := by
    intro res hret
    have hown := hs.returned
    have hfin := hs.finished
    have htask := hs.all.task
    cases hstep with
    | @mk before after sh sh' new t t' _ h =>
        rcases h.returned hret with hret | ⟨rfl, hsel, rfl⟩
        · exact hown res hret
        · exact hfin (htask (.waiter .sending) (by simp)) hsel

theorem frontendOk_start : FrontendOk plStr jobs (startFrontend jobs) where
  all := by
    refine ⟨⟨List.length_replicate, List.forall_mem_nil _, ?_⟩, ?_⟩
    · rintro ⟨e, he⟩
      cases he
    · intro t ht
      rcases List.mem_append.mp ht with ht | ht
      · obtain ⟨i, hi, rfl⟩ := List.mem_mapIdx.mp ht
        exact ⟨List.getElem?_eq_getElem hi, trivial⟩
      · obtain rfl := List.mem_singleton.mp ht
        trivial
  wg := by
    simp [startFrontend, Tasks.weight, List.mapIdx_eq_zipIdx_map, Function.comp_def, Task.undone]
  awaits := by
    simp [startFrontend, Tasks.weight, List.mapIdx_eq_zipIdx_map, Function.comp_def,
      Task.unreported, Main.awaits]
  which := by
    refine ⟨[none], ?_⟩
    apply List.ext_getElem
    · simp [startFrontend]
    · intro i _ _
      simp [startFrontend, List.getElem_append, Task.which]
  returned := fun res hret => by cases hret

theorem FrontendReach.ok (h : FrontendReach plStr (startFrontend jobs) s) :
    FrontendOk plStr jobs s :=
  h.invariant frontendOk_start fun _ _ _ hs _ hstep => hs.step hstep

/-! ## A state that no step leaves -/

/-- How far a goroutine is from its end. -/
def Task.rank : Task Platform → Nat
  | .worker _ _ .start => 6
  | .worker _ _ (.reportResolve _) => 5
  | .worker _ _ .solve => 4
  | .worker _ _ (.addRef _ _) => 3
  | .worker _ _ (.addMeta _ _) => 2
  | .worker _ _ (.setPlatform _ _) => 1
  | .worker _ _ (.reportSolve _) => 1
  | .worker _ _ .done => 0
  | .waiter .waiting => 2
  | .waiter .sending => 1
  | .waiter .ended => 0

theorem FrontendStep.rank_lt (h : FrontendStep plStr sh t e sh' t' new) :
    t'.rank + (new.map Task.rank).sum < t.rank := by
  cases h <;> simp only [Task.rank, List.map_nil, List.sum_nil] <;> omega

/-- A goroutine at a send. -/
def Task.Sending : Task Platform → Prop
  | .worker _ _ (.reportResolve _) => True
  | .worker _ _ (.reportSolve _) => True
  | .waiter .sending => True
  | _ => False

/-- A goroutine that is not at its end moves, unless it is at a send that nobody receives
or waits for the others. -/
theorem FrontendStep.exists_step (plStr : Platform → Bytes) (sh : Shared Platform)
    (t : Task Platform)
    (hsend : t.Sending → sh.main = .selecting) (hwait : t = .waiter .waiting → sh.wg = 0)
    (hrank : 0 < t.rank) : ∃ e sh' t', FrontendStep plStr sh t e sh' t' [] := by
  cases t with
  | waiter w =>
      cases w with
      | waiting => exact ⟨_, _, _, .waited (hwait rfl)⟩
      | sending => exact ⟨_, _, _, .finished (hsend trivial)⟩
      | ended => exact absurd hrank (Nat.lt_irrefl _)
  | worker i job w =>
      cases w with
      | start =>
          cases hres : job.answers.resolveStates with
          | none => exact ⟨_, _, _, .resolved hres⟩
          | some e => exact ⟨_, _, _, .resolveFailed hres⟩
      | reportResolve e => exact ⟨_, _, _, .resolveReported (hsend trivial)⟩
      | solve =>
          cases hsolve : (solvePlatform job.answers).2 with
          | ok built => exact ⟨_, _, _, .solved hsolve⟩
          | error e => exact ⟨_, _, _, .solveFailed hsolve⟩
      | reportSolve e => exact ⟨_, _, _, .solveReported (hsend trivial)⟩
      | addRef ref cfgJSON => exact ⟨_, _, _, .addRef⟩
      | addMeta ref cfgJSON => exact ⟨_, _, _, .addMeta⟩
      | setPlatform ref cfgJSON => exact ⟨_, _, _, .setPlatform⟩
      | done => exact absurd hrank (Nat.lt_irrefl _)

/-- No goroutine can move. -/
def Quiet (plStr : Platform → Bytes) (s : Tasks (Shared Platform) (Task Platform)) : Prop :=
  ∀ e s', ¬ TaskStep (FrontendStep plStr) s e s'

theorem Quiet.reach {s' : Tasks (Shared Platform) (Task Platform)} (hquiet : Quiet plStr s)
    (hrun : FrontendReach plStr s s') : s' = s := by
  apply hrun.invariant (I := fun t => t = s) rfl
  rintro _ e t rfl - hstep
  exact absurd hstep (hquiet e t)

variable (plStr jobs) in
theorem exists_quiet : ∃ s, FrontendReach plStr (startFrontend jobs) s ∧ Quiet plStr s := by
  obtain ⟨s, hrun, hlast⟩ :=
    Reach.exists_last (Tasks.weight Task.rank)
      (fun s e t _ hstep => Tasks.weight_lt hstep fun _ h => FrontendStep.rank_lt h)
        (startFrontend jobs)
  exact ⟨s, hrun, fun e s' => hlast e s' trivial⟩

/-- If all the others are done, the waiter has a report to make unless it was received. -/
theorem FrontendOk.waiter (hs : FrontendOk plStr jobs s)
    (hmain : ∀ res, s.shared.main ≠ .returned res) :
    ∃ w, Task.waiter w ∈ s.tasks ∧ (w = .waiting ∨ w = .sending) := by
  have hpos : 0 < s.weight Task.unreported := by
    rw [← hs.awaits]
    cases hm : s.shared.main with
    | selecting => exact Nat.one_pos
    | failed e => exact Nat.one_pos
    | returned res => exact absurd hm (hmain res)
  obtain ⟨t, ht, hpos⟩ := Tasks.exists_pos hpos
  cases t with
  | worker i job w => exact absurd hpos (Nat.lt_irrefl _)
  | waiter w =>
      cases w with
      | waiting => exact ⟨_, ht, .inl rfl⟩
      | sending => exact ⟨_, ht, .inr rfl⟩
      | ended => exact absurd hpos (Nat.lt_irrefl _)

/-- In a state that no step leaves, somebody is at a send that is not received, unless the
frontend has returned a result. -/
theorem Quiet.sending (hquiet : Quiet plStr s) (hs : FrontendOk plStr jobs s)
    (hmain : ∀ res, s.shared.main ≠ .returned res) :
    ∃ t ∈ s.tasks, t.Sending ∧ s.shared.main ≠ .selecting := by
  by_contra hnone
  push Not at hnone
  have hstill : ∀ t ∈ s.tasks, (t = .waiter .waiting → s.shared.wg = 0) → t.rank = 0 := by
    intro t ht hwait
    by_contra hrank
    obtain ⟨e, sh', t', h⟩ :=
      FrontendStep.exists_step plStr s.shared t (hnone t ht) hwait
        (Nat.pos_of_ne_zero hrank)
    obtain ⟨s', hstep⟩ := TaskStep.of_mem ht h
    exact hquiet e s' hstep
  have hwg : s.shared.wg = 0 := by
    rw [hs.wg, Tasks.weight_eq_zero]
    intro t ht
    cases t with
    | waiter w => rfl
    | worker i job w =>
        have := hstill _ ht (fun h => by cases h)
        cases w with
        | done => rfl
        | _ => cases this
  obtain ⟨w, hw, hat⟩ := hs.waiter hmain
  have hrank := hstill _ hw fun _ => hwg
  rcases hat with rfl | rfl
  · cases hrank
  · cases hrank

/-! ## All or nothing -/

variable (plStr jobs)

/-- A result is returned only if everything could be built, and has all of it; and nothing
is solved that could not be resolved. -/
structure AllOrNothing (s : Tasks (Shared Platform) (Task Platform)) : Prop where
  succeeds : ∀ res, s.shared.main = .returned res → ∀ job ∈ jobs, job.Succeeds
  delivers : ∀ res, s.shared.main = .returned res → Delivers plStr jobs res
  issued : ∀ i ∈ s.shared.issued, ∃ job, jobs[i]? = some job ∧ job.answers.resolveStates = none

variable {plStr jobs}

/-- Three steps of one goroutine, whose images could not be resolved. -/
theorem reach_issued (plStr : Platform → Bytes) {e : BuildError} (hjob : jobs[i]? = some job)
    (hres : job.answers.resolveStates = some e)
    (hsolves : job.answers.dockerfileConvertOpt.solves ≠ 0) :
    ∃ s, FrontendReach plStr (startFrontend jobs) s ∧ i ∈ s.shared.issued := by
  have hmem : Task.worker i job .start ∈ (startFrontend jobs).tasks := by
    apply List.mem_append_left
    obtain ⟨hi, rfl⟩ := List.getElem?_eq_some_iff.mp hjob
    exact List.mem_mapIdx.mpr ⟨i, hi, rfl⟩
  obtain ⟨before, after, hsplit⟩ := List.append_of_mem hmem
  have hstart : startFrontend jobs = ⟨(startFrontend jobs).shared,
      before ++ Task.worker i job .start :: after⟩ := by
    rw [← hsplit]
  have hissued : i ∈ List.replicate (solvePlatform job.answers).1 i :=
    List.mem_replicate.mpr ⟨(solvePlatform_issues _).not.mpr hsolves, rfl⟩
  rw [hstart]
  have hrun : FrontendReach plStr
      ⟨(startFrontend jobs).shared, before ++ Task.worker i job .start :: after⟩
      ⟨{ (startFrontend jobs).shared with main := .failed e },
        before ++ Task.worker i job .solve :: after⟩ :=
    .head trivial (.single before after (.resolveFailed hres))
      (.single trivial (.single before after (.resolveReported rfl)))
  cases hsolve : (solvePlatform job.answers).2 with
  | ok built =>
      exact ⟨_, hrun.tail trivial (.single before after (.solved hsolve)),
        List.mem_append_right _ hissued⟩
  | error e' =>
      exact ⟨_, hrun.tail trivial (.single before after (.solveFailed hsolve)),
        List.mem_append_right _ hissued⟩

/-- A build that is not only checked. -/
theorem allOrNothing_build (plStr : Platform → Bytes) (jobs : List (Job Platform)) :
    (∀ s, FrontendReach plStr (startFrontend jobs) s → AllOrNothing plStr jobs s) ↔
      (∀ job ∈ jobs, job.answers.resolveStates ≠ none →
        job.answers.dockerfileConvertOpt.solves = 0) ∧
          ((∀ job ∈ jobs, job.Succeeds) → Agree plStr jobs) := by
  constructor
  · intro hall
    constructor
    · intro job hmem hres
      by_contra hsolves
      obtain ⟨i, hjob⟩ := List.mem_iff_getElem?.mp hmem
      obtain ⟨e, he⟩ := Option.ne_none_iff_exists'.mp hres
      obtain ⟨s, hrun, hi⟩ := reach_issued plStr hjob he hsolves
      obtain ⟨job', hjob', hres'⟩ := (hall s hrun).issued i hi
      obtain rfl : job = job' := Option.some.inj (hjob.symm.trans hjob')
      exact hres hres'
    · intro hsucc job hjob job' hjob' hkey
      -- a run to its end returns a result, which has one place for the two
      obtain ⟨s, hrun, hquiet⟩ := exists_quiet plStr jobs
      have hok := hrun.ok
      obtain ⟨res, hret⟩ : ∃ res, s.shared.main = .returned res := by
        by_contra hnone
        push Not at hnone
        obtain ⟨t, ht, hsend, hmain⟩ := hquiet.sending hok hnone
        cases hm : s.shared.main with
        | selecting => exact hmain hm
        | returned res => exact hnone res hm
        | failed e =>
            obtain ⟨bad, hbad, hfails⟩ := hok.all.shared.failed ⟨e, hm⟩
            exact hfails (hsucc bad hbad)
      have hdel := (hall s hrun).delivers res hret
      obtain ⟨-, ref, cfgJSON, hsolve⟩ := hsucc job hjob
      obtain ⟨-, ref', cfgJSON', hsolve'⟩ := hsucc job' hjob'
      have href := hdel.ref job hjob ref cfgJSON hsolve
      have hcfg := hdel.config job hjob ref cfgJSON hsolve
      rw [hkey, hdel.ref job' hjob' ref' cfgJSON' hsolve'] at href
      rw [hkey, hdel.config job' hjob' ref' cfgJSON' hsolve'] at hcfg
      rw [hsolve, hsolve', Option.some.inj href, Option.some.inj hcfg]
  · rintro ⟨hsolves, hagree⟩ s hrun
    have hok := hrun.ok
    refine ⟨fun res hret => (hok.returned res hret).1, fun res hret => ?_, fun i hi => ?_⟩
    · obtain ⟨hsucc, hdel⟩ := hok.returned res hret
      exact hdel (hagree hsucc)
    · obtain ⟨job, hjob, hissued⟩ := hok.all.shared.issued i hi
      refine ⟨job, hjob, ?_⟩
      by_contra hres
      exact hissued (hsolves job (List.mem_of_getElem? hjob) hres)

/-- A check has nothing left to do. -/
theorem quiet_checked (outcome : Nat × Option BuildError) :
    Quiet plStr (checked outcome : Tasks (Shared Platform) (Task Platform)) := by
  intro e s' hstep
  obtain ⟨t, ht, _⟩ := hstep.exists_mem
  cases ht

/-- The result of a check is that of no platform. -/
theorem allOrNothing_checked (answers : CheckAnswers) (first : Job Platform)
    (others : List (Job Platform)) :
    AllOrNothing plStr (first :: others) (checked (checkBuild first.answers answers)) ↔
      (checkBuild first.answers answers).2 ≠ none := by
  constructor
  · intro hall hnone
    have hdel := hall.delivers ⟨fun _ => none, fun _ => none, []⟩ (by simp only [checked, hnone])
    cases hdel.platforms
  · intro hfails
    have hmain : ∀ res, (checked (checkBuild first.answers answers) :
        Tasks (Shared Platform) (Task Platform)).shared.main ≠ .returned res := by
      obtain ⟨e, he⟩ := Option.ne_none_iff_exists'.mp hfails
      simp only [checked, he]
      exact fun _ hret => by cases hret
    refine ⟨fun res hret => (hmain res hret).elim, fun res hret => (hmain res hret).elim, ?_⟩
    intro i hi
    obtain ⟨hsolves, rfl⟩ := List.mem_replicate.mp hi
    refine ⟨first, rfl, ?_⟩
    by_contra hres
    obtain ⟨e, he⟩ := Option.ne_none_iff_exists'.mp hres
    simp only [checkBuild, he] at hsolves
    exact hsolves rfl

/-- The frontend is all or nothing, whatever the interleaving, exactly if a platform that could
not be resolved fails before the Dockerfile is read and platforms that share a name are built
alike; for a check, exactly if it fails. -/
theorem frontend_allOrNothing_iff (plStr : Platform → Bytes) (b : FrontendCall Platform) :
    (∀ s, FrontendReach plStr b.start s → AllOrNothing plStr b.jobs s) ↔
      match b with
      | .build jobs =>
          (∀ job ∈ jobs, job.answers.resolveStates ≠ none →
            job.answers.dockerfileConvertOpt.solves = 0) ∧
              ((∀ job ∈ jobs, job.Succeeds) → Agree plStr jobs)
      | .check answers first _ => (checkBuild first.answers answers).2 ≠ none := by
  cases b with
  | build jobs => exact allOrNothing_build plStr jobs
  | check answers first others =>
      refine Iff.trans ⟨fun hall => hall _ (.refl _), fun h s hrun => ?_⟩
        (allOrNothing_checked answers first others)
      obtain rfl := (quiet_checked _).reach hrun
      exact h

/-- A platform whose images could not be resolved, and which can be solved nevertheless. -/
def unresolvedJob : Job Unit where
  platform := ()
  answers :=
    { resolveStates := some (.other 1)
      dockerfileConvertOpt := ⟨1, none⟩
      readEntrypoint := fun _ => Nat.one_pos
      dockerfile2LLB := ⟨1, none⟩
      marshal := none
      getPlatform := none
      solve := none
      singleRef := .ok (some 1)
      image := true
      layerMarshal := none
      layerSolve := none
      layerSingleRef := .ok 2
      toState := none
      imageJSON := .ok [] }

theorem unresolved_platform_is_solved :
    ∃ s, FrontendReach (fun _ => []) (FrontendCall.build [unresolvedJob]).start s ∧
      ¬ AllOrNothing (fun _ => []) [unresolvedJob] s := by
  have hjob : [unresolvedJob][0]? = some unresolvedJob := rfl
  obtain ⟨s, hrun, hi⟩ := reach_issued (fun _ => []) hjob rfl Nat.one_ne_zero
  refine ⟨s, hrun, fun hok => ?_⟩
  obtain ⟨job, hjob, hres⟩ := hok.issued 0 hi
  cases hjob
  cases hres

/-! ## Goroutines left behind -/

variable (plStr) in
/-- The goroutine at one place is at a send, and stays there whatever happens. -/
def BlockedForever (s : Tasks (Shared Platform) (Task Platform)) (i : Nat) : Prop :=
  ∃ t, s.tasks[i]? = some t ∧ t.Sending ∧
    ∀ s', FrontendReach plStr s s' → s'.tasks[i]? = some t

/-- The frontend has returned, with an error or a result. -/
def Main.Returned (m : Main Platform) : Prop := m ≠ .selecting

/-- Once a result is returned, nobody is at a send any more. -/
theorem FrontendOk.not_sending (hs : FrontendOk plStr jobs s) {res : Result Platform}
    (hret : s.shared.main = .returned res) (ht : t ∈ s.tasks) :
    ¬ t.Sending := by
  intro hsend
  have hsucc := (hs.returned res hret).1
  have hok := hs.all.task t ht
  cases t with
  | waiter w =>
      have hawaits := hs.awaits
      rw [hret] at hawaits
      have hzero := Tasks.weight_eq_zero.mp hawaits.symm _ ht
      cases w with
      | sending => cases hzero
      | waiting => exact hsend
      | ended => exact hsend
  | worker i job w =>
      have hjob := hsucc job (List.mem_of_getElem? hok.1)
      cases w with
      | reportResolve e => exact not_succeeds_of_resolve hok.2 hjob
      | reportSolve e => exact not_succeeds_of_solve hok.2 hjob
      | _ => exact hsend

/-- A build that is not only checked. -/
theorem leaves_nobody_build (plStr : Platform → Bytes) (jobs : List (Job Platform)) :
    (∀ s, FrontendReach plStr (startFrontend jobs) s → s.shared.main.Returned →
        ∀ i, ¬ BlockedForever plStr s i) ↔
      ∀ job ∈ jobs, job.Succeeds := by
  constructor
  · intro hnobody
    by_contra hfails
    obtain ⟨s, hrun, hquiet⟩ := exists_quiet plStr jobs
    have hok := hrun.ok
    obtain ⟨t, ht, hsend, hmain⟩ := hquiet.sending hok fun res hret =>
      hfails (hok.returned res hret).1
    obtain ⟨i, hi⟩ := List.mem_iff_getElem?.mp ht
    refine hnobody s hrun hmain i ⟨t, hi, hsend, fun s' hrun' => ?_⟩
    rw [hquiet.reach hrun']
    exact hi
  · rintro hsucc s hrun hret i ⟨t, hi, hsend, -⟩
    have hok := hrun.ok
    cases hm : s.shared.main with
    | selecting => exact hret hm
    | returned res => exact hok.not_sending hm (List.mem_of_getElem? hi) hsend
    | failed e =>
        obtain ⟨job, hjob, hfail⟩ := hok.all.shared.failed ⟨e, hm⟩
        exact hfail (hsucc job hjob)

/-- No goroutine is left behind, whatever the interleaving, exactly if every platform is
built, or the build is only checked. -/
theorem frontend_leaves_nobody_iff (plStr : Platform → Bytes) (b : FrontendCall Platform) :
    (∀ s, FrontendReach plStr b.start s → s.shared.main.Returned →
        ∀ i, ¬ BlockedForever plStr s i) ↔
      match b with
      | .build jobs => ∀ job ∈ jobs, job.Succeeds
      | .check _ _ _ => True := by
  cases b with
  | build jobs => exact leaves_nobody_build plStr jobs
  | check answers first others =>
      refine iff_of_true (fun s hrun _ i => ?_) trivial
      obtain rfl := (quiet_checked _).reach hrun
      rintro ⟨t, ht, _⟩
      cases ht

/-- One platform, which fails to be built. -/
def failingJob : Job Unit :=
  { unresolvedJob with
    answers := { unresolvedJob.answers with resolveStates := none, solve := some (.other 2) } }

/-- Its failure has been received, and the waiter is about to report. -/
def failedState : Tasks (Shared Unit) (Task Unit) where
  shared :=
    { (startFrontend [failingJob]).shared with
      wg := 0
      main := .failed (.other 2)
      issued := [0, 0, 0] }
  tasks := [.worker 0 failingJob .done, .waiter .sending]

theorem reach_failedState :
    FrontendReach (fun _ => []) (startFrontend [failingJob]) failedState := by
  let waiting : Task Unit := .waiter .waiting
  let done : Task Unit := .worker 0 failingJob .done
  apply Reach.head trivial (TaskStep.single [] [waiting] (FrontendStep.resolved rfl))
  apply Reach.head trivial (TaskStep.single [] [waiting] (FrontendStep.solveFailed rfl))
  apply Reach.head trivial (TaskStep.single [] [waiting] (FrontendStep.solveReported rfl))
  exact Reach.single trivial (TaskStep.single [done] [] (FrontendStep.waited rfl))

/-- Nobody receives what the waiter reports. -/
theorem waiter_left_behind :
    FrontendReach (fun _ => []) (FrontendCall.build [failingJob]).start failedState ∧
      failedState.shared.main.Returned ∧ BlockedForever (fun _ => []) failedState 1 := by
  refine ⟨reach_failedState, (fun h => by cases h), .waiter .sending, rfl, trivial, ?_⟩
  intro s' hrun
  have hquiet : Quiet (fun _ => []) failedState := by
    intro e s' hstep
    obtain ⟨t, ht, sh', t', new, h⟩ := hstep.exists_mem
    rcases List.mem_pair.mp ht with rfl | rfl
    · cases h
    · cases h with
      | finished hsel => cases hsel
  rw [hquiet.reach hrun]
  rfl

end

end BuilderShim.Build
