/-
  Prefetch/Outcome.lean --- what a `ReadAt` call returns, as a sequential program.

  `Outcome` describes the results of a call that copies from chunks of which all it
  knows is `Good`: no cache, no other goroutines.  Every result of the concurrent
  prefetcher is one of these, whatever ran beside the call and however its chunks
  were obtained, as long as each answer of the underlying reader that the code
  accepts is `Good` for the chunk it was read for.
-/
import BuilderShim.Prefetch.Prefetcher

set_option autoImplicit false

namespace BuilderShim.Prefetch

open BuilderShim.Foundation

/-- The read is one that `ReadAt` goes on with, up to the copying: the loop that
schedules the chunks ends only if there is an index above them. -/
structure Proceeds (p : Prefetcher) (rd : Read) : Prop where
  valid : p.validateRead rd = none
  len : rd.len ≠ 0
  ends : p.endsInChunk rd = false
  max : p.endChunk rd < Int64.maxValue

section

variable (p : Prefetcher) (Good : Int64 → Bytes → Prop)

/-- The loop of `copyChunks` has come to `index` with `got` in the buffer. -/
inductive Copied (rd : Read) : Int64 → Bytes → Prop
  | start (h : Proceeds p rd) : Copied rd (p.startChunk rd) []
  | next {index : Int64} {got got' data : Bytes} (h : Copied rd index got)
      (hi : index ≤ p.endChunk rd) (hlen : got.length < rd.len) (hgood : Good index data)
      (hcopy : p.copyChunk rd index got data = some got') : Copied rd (index + 1) got'

/-- What a call may return; `faults` says whether the prefetcher may be closed, a read
may time out or the reader may fail. -/
inductive Outcome (faults : Prop) (rd : Read) : Bytes → Option Err → Prop
  | closed (hf : faults) : Outcome faults rd [] (some .prefetcherClosed)
  | refused {e : Err} (h : p.validateRead rd = some e) : Outcome faults rd [] (some e)
  | empty (h : p.validateRead rd = none) (hlen : rd.len = 0) : Outcome faults rd [] none
  | ends (h : p.validateRead rd = none) (hlen : rd.len ≠ 0) (hend : p.endsInChunk rd = true) :
      Outcome faults rd [] (some .eof)
  | full {index : Int64} {got : Bytes} (h : Copied p Good rd index got)
      (hstop : ¬ (index ≤ p.endChunk rd ∧ got.length < rd.len)) :
      Outcome faults rd got (p.finalErr rd got)
  | short {index : Int64} {got data : Bytes} (h : Copied p Good rd index got)
      (hi : index ≤ p.endChunk rd) (hlen : got.length < rd.len) (hgood : Good index data)
      (hcopy : p.copyChunk rd index got data = none) :
      Outcome faults rd got (p.finalErr rd got)
  | failed {index : Int64} {got : Bytes} {e : Err} (hf : faults)
      (h : Copied p Good rd index got) : Outcome faults rd got (some e)

end

/-- What is assumed of the events: an answer that the code accepts is `Good`, and only
where faults may occur does the reader fail or a timeout expire. -/
def Admissible (Good : Int64 → Bytes → Prop) (faults : Prop) : Event → Prop
  | .tau => True
  | .answer index a => (a.ok = true → Good index a.data) ∧ (a.ok = false → faults)
  | .expire => faults

/-! ## The invariant -/

section

variable (Good : Int64 → Bytes → Prop) (faults : Prop)

/-- The result of a fetch of the chunk. -/
def ResultOk (index : Int64) : Except Err Chunk → Prop
  | .ok ch => ch.index = index ∧ Good index ch.data
  | .error _ => faults

structure SharedOk (sh : Shared) : Prop where
  cache : sh.cache.Holds Good
  flight : ∀ index c, sh.flights index = some c → c < sh.nextCall ∧ (sh.calls c).key = index
  result : ∀ c r, c < sh.nextCall → (sh.calls c).result = some r →
    ResultOk Good faults (sh.calls c).key r
  closed : sh.closed = true → faults

/-- `c` is a call that was made for the chunk. -/
def CallFor (sh : Shared) (index : Int64) (c : Nat) : Prop :=
  c < sh.nextCall ∧ (sh.calls c).key = index

def FetchOk (sh : Shared) (index : Int64) : Fetch → Prop
  | .start => True
  | .waiting c | .lookup c | .acquire c | .read c _ none => CallFor sh index c
  | .read c _ (some a) =>
      CallFor sh index c ∧ (a.ok = true → Good index a.data) ∧ (a.ok = false → faults)
  | .retry c _ => CallFor sh index c ∧ faults
  | .add c ch => CallFor sh index c ∧ ch.index = index ∧ Good index ch.data
  | .release c r | .finish c r => CallFor sh index c ∧ ResultOk Good faults index r
  | .returned r => ResultOk Good faults index r

/-- The read is one that `ReadAt` looks at further. -/
def Admitted (p : Prefetcher) (rd : Read) : Prop := p.validateRead rd = none ∧ rd.len ≠ 0

def ReadingOk (p : Prefetcher) (sh : Shared) (rd : Read) : Reading → Prop
  | .begin => True
  | .evict => Admitted p rd
  | .required _ | .register _ => Admitted p rd ∧ p.endsInChunk rd = false
  | .ahead _ _ | .registerAhead _ _ => Copied p Good rd (p.startChunk rd) []
  | .copy index got => Copied p Good rd index got
  | .fetch index got f =>
      Copied p Good rd index got ∧ (index ≤ p.endChunk rd ∧ got.length < rd.len) ∧
        FetchOk Good faults sh index f
  | .done got err | .returned got err => Outcome p Good faults rd got err

def TaskOk (p : Prefetcher) (sh : Shared) : Task → Prop
  | .readAt rd r => ReadingOk Good faults p sh rd r
  | .required index (.fetch f) => FetchOk Good faults sh index f
  | .required _ _ => True
  | .readAhead index (.add ch) => ch.index = index ∧ Good index ch.data
  | .readAhead _ _ => True
  | .close _ => faults
  | .orphan _ _ => True

end

/-- Calls are only ever added. -/
def Grows (sh sh' : Shared) : Prop := ∀ index c, CallFor sh index c → CallFor sh' index c

section

variable {Good : Int64 → Bytes → Prop} {faults : Prop} {p : Prefetcher}

theorem Grows.refl (sh : Shared) : Grows sh sh := fun _ _ h => h

variable {index : Int64} {sh sh' : Shared} {e : Event} {new : List Task} {rd : Read}

theorem FetchOk.grows {f : Fetch} (hg : Grows sh sh') (h : FetchOk Good faults sh index f) :
    FetchOk Good faults sh' index f := by
  cases f with
  | start => trivial
  | waiting c | lookup c | acquire c => exact hg index c h
  | read c attempt result =>
      cases result with
      | none => exact hg index c h
      | some a => exact ⟨hg index c h.1, h.2⟩
  | retry c attempt | add c ch | release c r | finish c r => exact ⟨hg index c h.1, h.2⟩
  | returned r => exact h

theorem TaskOk.grows {t : Task} (hg : Grows sh sh') (h : TaskOk Good faults p sh t) :
    TaskOk Good faults p sh' t := by
  cases t with
  | readAt rd r =>
      cases r with
      | fetch index got f => exact ⟨h.1, h.2.1, h.2.2.grows hg⟩
      | _ => exact h
  | required index r =>
      cases r with
      | fetch f => exact FetchOk.grows hg h
      | _ => exact h
  | readAhead index r => cases r <;> exact h
  | close c => exact h
  | orphan index ended => exact h

/-- Only the cache, the semaphore or the wait group has changed. -/
theorem SharedOk.of_calls (h : SharedOk Good faults sh) (hcache : sh'.cache.Holds Good)
    (hflights : sh'.flights = sh.flights) (hcalls : sh'.calls = sh.calls)
    (hnext : sh'.nextCall = sh.nextCall) (hclosed : sh'.closed = true → faults) :
    SharedOk Good faults sh' where
  cache := hcache
  flight := by
    rw [hflights, hcalls, hnext]
    exact h.flight
  result := by
    rw [hcalls, hnext]
    exact h.result
  closed := hclosed

theorem SharedOk.newCall (h : SharedOk Good faults sh) (index : Int64) :
    SharedOk Good faults (sh.newCall index) ∧ Grows sh (sh.newCall index) ∧
      CallFor (sh.newCall index) index sh.nextCall := by
  have hgrows : Grows sh (sh.newCall index) := by
    rintro index' c ⟨hc, hkey⟩
    refine ⟨Nat.lt_succ_of_lt hc, ?_⟩
    simp only [Shared.newCall, Function.update_of_ne (Nat.ne_of_lt hc)]
    exact hkey
  have hnew : CallFor (sh.newCall index) index sh.nextCall :=
    ⟨Nat.lt_succ_self _, by simp [Shared.newCall]⟩
  refine ⟨⟨h.cache, fun index' c hf => ?_, fun c r hc hr => ?_, h.closed⟩, hgrows, hnew⟩
  · simp only [Shared.newCall, Function.update_apply] at hf
    split at hf
    · rename_i heq
      cases hf
      subst heq
      exact hnew
    · exact hgrows index' c (h.flight index' c hf)
  · by_cases hlast : c = sh.nextCall
    · subst hlast
      simp [Shared.newCall] at hr
    · have hold : c < sh.nextCall := Nat.lt_of_le_of_ne (Nat.le_of_lt_succ hc) hlast
      simp only [Shared.newCall, Function.update_of_ne hlast] at hr ⊢
      exact h.result c r hold hr

theorem SharedOk.finishCall (h : SharedOk Good faults sh) {c : Nat} {r : Except Err Chunk}
    (hc : CallFor sh index c) (hr : ResultOk Good faults index r) :
    SharedOk Good faults (sh.finishCall index c r) ∧ Grows sh (sh.finishCall index c r) := by
  have hgrows : Grows sh (sh.finishCall index c r) := by
    rintro index' c' ⟨hlt, hkey⟩
    refine ⟨hlt, ?_⟩
    by_cases heq : c' = c
    · subst heq
      have : index' = index := hkey.symm.trans hc.2
      simp [Shared.finishCall, this]
    · simp only [Shared.finishCall, Function.update_of_ne heq]
      exact hkey
  refine ⟨⟨h.cache, fun index' c' hf => ?_, fun c' r' hlt hr' => ?_, h.closed⟩, hgrows⟩
  · simp only [Shared.finishCall, Function.update_apply] at hf
    split at hf
    · cases hf
    · exact hgrows index' c' (h.flight index' c' hf)
  · by_cases heq : c' = c
    · subst heq
      simp only [Shared.finishCall, Function.update_self, Option.some.injEq] at hr' ⊢
      subst hr'
      exact hr
    · simp only [Shared.finishCall, Function.update_of_ne heq] at hr' ⊢
      exact h.result c' r' hlt hr'

theorem afterAttempt_ok {c : Nat} {attempt : Int64} (hc : CallFor sh index c) (hf : faults) :
    FetchOk Good faults sh index (p.afterAttempt c attempt) := by
  unfold Prefetcher.afterAttempt
  split
  · exact ⟨hc, hf⟩
  · exact ⟨hc, hf⟩

theorem orphans_ok {result : Option Answer} :
    ∀ t ∈ Prefetcher.orphans index result, TaskOk Good faults p sh t := by
  intro t ht
  cases result with
  | none =>
      rw [List.mem_singleton.mp ht]
      trivial
  | some a => cases ht

/-- A fetch keeps the invariant and disturbs no other goroutine. -/
theorem fetch_ok {f f' : Fetch} (hsh : SharedOk Good faults sh)
    (hf : FetchOk Good faults sh index f) (he : Admissible Good faults e)
    (h : p.FetchStep index sh f e sh' f' new) :
    SharedOk Good faults sh' ∧ FetchOk Good faults sh' index f' ∧ Grows sh sh' ∧
      ∀ t ∈ new, TaskOk Good faults p sh' t := by
  cases h with
  | lead _ =>
      obtain ⟨hok, hgrows, hnew⟩ := hsh.newCall index
      exact ⟨hok, hnew, hgrows, by simp⟩
  | join hfl => exact ⟨hsh, hsh.flight _ _ hfl, .refl _, by simp⟩
  | @woken c r hr =>
      have hres := hsh.result c r hf.1 hr
      rw [hf.2] at hres
      exact ⟨hsh, hres, .refl _, by simp⟩
  | @hit c now ch hch =>
      obtain ⟨hcache, hgot⟩ := hsh.cache.getChunk index now
      exact ⟨hsh.of_calls hcache rfl rfl rfl hsh.closed, ⟨hf, hgot ch hch⟩, .refl _, by simp⟩
  | miss _ => exact ⟨hsh, hf, .refl _, by simp⟩
  | acquire _ =>
      exact ⟨hsh.of_calls hsh.cache rfl rfl rfl hsh.closed, hf, .refl _, by simp⟩
  | acquireCancelled hclosed => exact ⟨hsh, ⟨hf, hsh.closed hclosed⟩, .refl _, by simp⟩
  | acquireExpired => exact ⟨hsh, ⟨hf, he⟩, .refl _, by simp⟩
  | answer => exact ⟨hsh, ⟨hf, he⟩, .refl _, by simp⟩
  | readOk ha => exact ⟨hsh, ⟨hf.1, rfl, hf.2.1 ha⟩, .refl _, by simp⟩
  | readFailed ha => exact ⟨hsh, afterAttempt_ok hf.1 (hf.2.2 ha), .refl _, by simp⟩
  | @readExpired c attempt result =>
      have hc : CallFor sh index c := by
        cases result with
        | none => exact hf
        | some a => exact hf.1
      exact ⟨hsh, afterAttempt_ok hc he, .refl _, orphans_ok⟩
  | @readCancelled c attempt result hclosed =>
      have hc : CallFor sh index c := by
        cases result with
        | none => exact hf
        | some a => exact hf.1
      exact ⟨hsh, afterAttempt_ok hc (hsh.closed hclosed), .refl _, orphans_ok⟩
  | retry => exact ⟨hsh, hf.1, .refl _, by simp⟩
  | retryCancelled hclosed => exact ⟨hsh, ⟨hf.1, hf.2⟩, .refl _, by simp⟩
  | @add c ch order now =>
      obtain ⟨hc, rfl, hgood⟩ := hf
      have hcache := hsh.cache.addChunk order now hgood
      exact ⟨hsh.of_calls hcache rfl rfl rfl hsh.closed, ⟨hc, rfl, hgood⟩, .refl _, by simp⟩
  | release => exact ⟨hsh.of_calls hsh.cache rfl rfl rfl hsh.closed, hf, .refl _, by simp⟩
  | finish =>
      obtain ⟨hok, hgrows⟩ := hsh.finishCall hf.1 hf.2
      exact ⟨hok, hf.2, hgrows, by simp⟩

theorem enter_ok : ReadingOk Good faults p sh rd (p.enter rd) := by
  unfold Prefetcher.enter
  cases hv : p.validateRead rd with
  | some e => exact .refused hv
  | none =>
      by_cases hlen : rd.len = 0
      · simp only [hlen, if_true]
        exact .empty hv hlen
      · simp only [hlen, if_false]
        exact ⟨hv, hlen⟩

theorem copyFrom_ok {got data : Bytes} (h : Copied p Good rd index got) (hi : index ≤ p.endChunk rd)
    (hlen : got.length < rd.len) (hgood : Good index data) :
    ReadingOk Good faults p sh rd (p.copyFrom rd index got data) := by
  unfold Prefetcher.copyFrom
  cases hcopy : p.copyChunk rd index got data with
  | none => exact .short h hi hlen hgood hcopy
  | some got' => exact .next h hi hlen hgood hcopy

/-- A `ReadAt` call keeps the invariant and disturbs no other goroutine. -/
theorem read_ok {r r' : Reading} (hsh : SharedOk Good faults sh)
    (hr : ReadingOk Good faults p sh rd r) (he : Admissible Good faults e)
    (h : p.ReadStep rd sh r e sh' r' new) :
    SharedOk Good faults sh' ∧ ReadingOk Good faults p sh' rd r' ∧ Grows sh sh' ∧
      ∀ t ∈ new, TaskOk Good faults p sh' t := by
  cases h with
  | refused hclosed => exact ⟨hsh, .closed (hsh.closed hclosed), .refl _, by simp⟩
  | begin _ => exact ⟨hsh.of_calls hsh.cache rfl rfl rfl hsh.closed, enter_ok, .refl _, by simp⟩
  | evict =>
      refine ⟨hsh.of_calls (hsh.cache.evictBefore _) rfl rfl rfl hsh.closed, ?_, .refl _, by simp⟩
      cases hend : p.endsInChunk rd with
      | true => exact .ends hr.1 hr.2 hend
      | false => exact ⟨hr, hend⟩
  | requiredHit _ _ | requiredMiss _ _ => exact ⟨hsh, hr, .refl _, by simp⟩
  | @requiredEnd index hi =>
      -- The loop can only have ended below the largest index.
      have hmax : p.endChunk rd < Int64.maxValue := by
        have hlt := Int64.not_le.mp hi
        exact Int64.lt_of_lt_of_le hlt (Int64.le_maxValue index)
      exact ⟨hsh, .start ⟨hr.1.1, hr.1.2, hr.2, hmax⟩, .refl _, by simp⟩
  | register _ =>
      refine ⟨hsh.of_calls hsh.cache rfl rfl rfl hsh.closed, hr, .refl _, fun t ht => ?_⟩
      rw [List.mem_singleton.mp ht]
      trivial
  | registerClosed _ | aheadHit _ _ _ | aheadMiss _ _ _ | aheadEnd _ | registerAheadClosed _ =>
      exact ⟨hsh, hr, .refl _, by simp⟩
  | registerAhead _ =>
      refine ⟨hsh.of_calls hsh.cache rfl rfl rfl hsh.closed, hr, .refl _, fun t ht => ?_⟩
      rw [List.mem_singleton.mp ht]
      trivial
  | @copyHit index got now ch hi hlen hch =>
      obtain ⟨hcache, hgot⟩ := hsh.cache.getChunk index now
      exact ⟨hsh.of_calls hcache rfl rfl rfl hsh.closed,
        copyFrom_ok hr hi hlen (hgot ch hch).2, .refl _, by simp⟩
  | copyMiss hi hlen _ => exact ⟨hsh, ⟨hr, ⟨hi, hlen⟩, trivial⟩, .refl _, by simp⟩
  | copyEnd hstop => exact ⟨hsh, .full hr hstop, .refl _, by simp⟩
  | fetch hf =>
      obtain ⟨hsh', hf', hgrows, hnew⟩ := fetch_ok hsh hr.2.2 he hf
      exact ⟨hsh', ⟨hr.1, hr.2.1, hf'⟩, hgrows, hnew⟩
  | fetched => exact ⟨hsh, copyFrom_ok hr.1 hr.2.1.1 hr.2.1.2 hr.2.2.2, .refl _, by simp⟩
  | fetchFailed => exact ⟨hsh, .failed hr.2.2 hr.1, .refl _, by simp⟩
  | done => exact ⟨hsh.of_calls hsh.cache rfl rfl rfl hsh.closed, hr, .refl _, by simp⟩

theorem required_ok {r r' : Required} (hsh : SharedOk Good faults sh)
    (hr : TaskOk Good faults p sh (.required index r)) (he : Admissible Good faults e)
    (h : p.RequiredStep index sh r e sh' r' new) :
    SharedOk Good faults sh' ∧ TaskOk Good faults p sh' (.required index r') ∧ Grows sh sh' ∧
      ∀ t ∈ new, TaskOk Good faults p sh' t := by
  cases h with
  | start _ | closed _ | hit _ | miss _ | fetched => exact ⟨hsh, trivial, .refl _, by simp⟩
  | fetch hf => exact fetch_ok hsh hr he hf
  | done => exact ⟨hsh.of_calls hsh.cache rfl rfl rfl hsh.closed, trivial, .refl _, by simp⟩

theorem readAhead_ok {r r' : ReadAhead} (hsh : SharedOk Good faults sh)
    (hr : TaskOk Good faults p sh (.readAhead index r)) (he : Admissible Good faults e)
    (h : p.ReadAheadStep index sh r e sh' r') :
    SharedOk Good faults sh' ∧ TaskOk Good faults p sh' (.readAhead index r') ∧
      Grows sh sh' := by
  cases h with
  | start _ | closed _ | hit _ | miss _ | busy _ | readFailed _ =>
      exact ⟨hsh, trivial, .refl _⟩
  | readOk ha => exact ⟨hsh, ⟨rfl, he.1 ha⟩, .refl _⟩
  | @add ch order now =>
      obtain ⟨rfl, hgood⟩ := hr
      exact ⟨hsh.of_calls (hsh.cache.addChunk order now hgood) rfl rfl rfl hsh.closed, trivial,
        .refl _⟩
  | acquire _ | release | done =>
      exact ⟨hsh.of_calls hsh.cache rfl rfl rfl hsh.closed, trivial, .refl _⟩

theorem close_ok {c c' : Closing} (hsh : SharedOk Good faults sh) (hc : faults)
    (h : CloseStep sh c e sh' c') :
    SharedOk Good faults sh' ∧ Grows sh sh' := by
  cases h with
  | start _ => exact ⟨hsh.of_calls hsh.cache rfl rfl rfl fun _ => hc, .refl _⟩
  | again _ | wait _ => exact ⟨hsh, .refl _⟩
  | clear =>
      exact ⟨hsh.of_calls (ChunkCache.holds_clear _) rfl rfl rfl hsh.closed, .refl _⟩

/-- Every step of every goroutine keeps the invariant and disturbs no other. -/
theorem local_ok {t t' : Task} (hsh : SharedOk Good faults sh) (ht : TaskOk Good faults p sh t)
    (he : Admissible Good faults e) (h : p.LocalStep sh t e sh' t' new) :
    SharedOk Good faults sh' ∧ TaskOk Good faults p sh' t' ∧ Grows sh sh' ∧
      ∀ u ∈ new, TaskOk Good faults p sh' u := by
  cases h with
  | readAt hr => exact read_ok hsh ht he hr
  | required hr => exact required_ok hsh ht he hr
  | readAhead hr =>
      obtain ⟨hsh', ht', hgrows⟩ := readAhead_ok hsh ht he hr
      exact ⟨hsh', ht', hgrows, by simp⟩
  | close hc =>
      obtain ⟨hsh', hgrows⟩ := close_ok hsh ht hc
      exact ⟨hsh', ht, hgrows, by simp⟩
  | orphan => exact ⟨hsh, trivial, .refl _, by simp⟩

/-- The invariant in every reachable state. -/
theorem all_ok {s s' : Tasks Shared Task} {C : Tasks Shared Task → Event → Prop}
    (hC : ∀ s e, C s e → Admissible Good faults e)
    (hs : s.All (SharedOk Good faults) (TaskOk Good faults p)) (hrun : Reach p.Step C s s') :
    s'.All (SharedOk Good faults) (TaskOk Good faults p) := by
  refine hrun.invariant hs fun s e t hall hCe hstep => hall.step hstep ?_ ?_
  · intro sh t sh' t' new hsh ht hlocal
    obtain ⟨hsh', ht', _, hnew⟩ := local_ok hsh ht (hC _ _ hCe) hlocal
    exact ⟨hsh', ht', hnew⟩
  · intro sh t sh' t' new u hsh ht hlocal hu
    exact hu.grows (local_ok hsh ht (hC _ _ hCe) hlocal).2.2.1

theorem start_ok {calls : List Call} (hclose : Call.close ∈ calls → faults) :
    (start calls).All (SharedOk Good faults) (TaskOk Good faults p) where
  shared :=
    { cache := ChunkCache.holds_new
      flight := fun _ _ h => by cases h
      result := fun _ _ h => by cases h
      closed := fun h => by cases h }
  task := by
    intro t ht
    obtain ⟨call, hcall, rfl⟩ := List.mem_map.mp ht
    cases call with
    | readAt rd => trivial
    | close => exact hclose hcall

/-- Whatever a call returns in a run of the prefetcher is an outcome of the sequential
program. -/
theorem outcome_of_reach {calls : List Call} {C : Tasks Shared Task → Event → Prop}
    (hC : ∀ s e, C s e → Admissible Good faults e) (hclose : Call.close ∈ calls → faults)
    {s : Tasks Shared Task} (hrun : Reach p.Step C (start calls) s) {got : Bytes} {err : Option Err}
    (h : Task.readAt rd (.returned got err) ∈ s.tasks) :
    Outcome p Good faults rd got err :=
  (all_ok hC (start_ok hclose) hrun).task _ h

end

end BuilderShim.Prefetch
