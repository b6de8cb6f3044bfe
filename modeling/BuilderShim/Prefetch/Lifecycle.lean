/-
  Prefetch/Lifecycle.lean --- how many reads run, and what `Close` puts an end to.

  `readChunkOnce` reads in a goroutine of its own, and the goroutine that waits for
  the result may give it up.  As long as it waits it has a token of the semaphore,
  so the reads that somebody waits for are within `MaxParallelReads`; the reads that
  were given up come on top of these.

  `Close` waits for the goroutines that are registered with the wait group.  The
  counter is their number (`Lifecycle`), and nobody registers once the prefetcher
  is closed.  So when `Close` returns, what can still move are calls that will be
  refused and reads that were given up (`Leftover`): the cache stays empty, but the
  underlying reader may still be at work.
-/
import BuilderShim.Prefetch.Progress

set_option autoImplicit false

namespace BuilderShim.Prefetch

open BuilderShim.Foundation

/-! ## Reads in progress -/

/-- A read that the fetch waits for and that the reader is still at. -/
def Fetch.awaited : Fetch → Nat
  | .read _ _ none => 1
  | _ => 0

/-- The same of a goroutine; `readAhead` calls the reader itself. -/
def Task.awaited : Task → Nat
  | .readAt _ (.fetch _ _ f) | .required _ (.fetch f) => f.awaited
  | .readAhead _ .read => 1
  | _ => 0

/-- A read that was given up and that the reader is still at. -/
def Task.abandoned : Task → Nat
  | .orphan _ false => 1
  | _ => 0

/-- The calls of `reader.ReadAt` in progress.  The one of `readChunkOnce` counts from the
`go` statement on. -/
def inProgress (s : Tasks Shared Task) : Nat :=
  s.weight Task.awaited + s.weight Task.abandoned

theorem Fetch.awaited_le_tokens (f : Fetch) : f.awaited ≤ f.tokens := by
  cases f with
  | read c attempt result =>
      cases result with
      | none => exact Nat.le_refl 1
      | some a => exact Nat.zero_le 1
  | _ => exact Nat.zero_le _

theorem Fetch.awaited_le_one (f : Fetch) : f.awaited ≤ 1 := by
  unfold Fetch.awaited
  split
  · exact Nat.le_refl 1
  · exact Nat.zero_le 1

/-- Who waits for a read has a token. -/
theorem Task.awaited_le_tokens (t : Task) : t.awaited ≤ t.tokens := by
  cases t with
  | readAt rd r =>
      cases r with
      | fetch index got f => exact f.awaited_le_tokens
      | _ => exact Nat.zero_le _
  | required index r =>
      cases r with
      | fetch f => exact f.awaited_le_tokens
      | _ => exact Nat.zero_le _
  | readAhead index r =>
      cases r with
      | read => exact Nat.le_refl 1
      | _ => exact Nat.zero_le _
  | close c => exact Nat.zero_le _
  | orphan index ended => exact Nat.zero_le _

theorem abandoned_eq_zero {s : Tasks Shared Task} :
    s.weight Task.abandoned = 0 ↔ ∀ index, Task.orphan index false ∉ s.tasks := by
  rw [Tasks.weight_eq_zero]
  constructor
  · intro h index hmem
    exact absurd (h _ hmem) Nat.one_ne_zero
  · intro h t ht
    cases t with
    | orphan index ended =>
        cases ended with
        | true => rfl
        | false => exact absurd ht (h index)
    | _ => rfl

section

variable {p : Prefetcher} {sh sh' : Shared} {e : Event} {new : List Task}

theorem fetch_semaphore_le {index : Int64} {f f' : Fetch} (hle : sh.semaphore ≤ p.tokens)
    (h : p.FetchStep index sh f e sh' f' new) : sh'.semaphore ≤ p.tokens := by
  cases h with
  | acquire hfree => exact hfree
  | release => exact Nat.le_trans (Nat.sub_le _ _) hle
  | _ => exact hle

/-- The semaphore has no more than its tokens. -/
theorem local_semaphore_le {t t' : Task} (hle : sh.semaphore ≤ p.tokens)
    (h : p.LocalStep sh t e sh' t' new) : sh'.semaphore ≤ p.tokens := by
  cases h with
  | readAt hr =>
      cases hr with
      | fetch hf => exact fetch_semaphore_le hle hf
      | _ => exact hle
  | required hr =>
      cases hr with
      | fetch hf => exact fetch_semaphore_le hle hf
      | _ => exact hle
  | readAhead hr =>
      cases hr with
      | acquire hfree => exact hfree
      | release => exact Nat.le_trans (Nat.sub_le _ _) hle
      | _ => exact hle
  | close hc =>
      cases hc with
      | _ => exact hle
  | orphan => exact hle

end

/-- In every reachable state the reads that somebody waits for are at most as many as the
semaphore has tokens. -/
theorem awaited_le {p : Prefetcher} {calls : List Call} {s : Tasks Shared Task}
    (hrun : Reach p.Step (fun _ _ => True) (start calls) s) :
    s.weight Task.awaited ≤ p.tokens := by
  have hstart : TokensHeld (start calls) := by
    refine (Tasks.weight_eq_zero.mpr fun t ht => ?_).symm
    obtain ⟨call, -, rfl⟩ := List.mem_map.mp ht
    cases call with
    | readAt rd => rfl
    | close => rfl
  have hinv : TokensHeld s ∧ s.shared.semaphore ≤ p.tokens := by
    refine hrun.invariant (I := fun s => TokensHeld s ∧ s.shared.semaphore ≤ p.tokens)
      ⟨hstart, Nat.zero_le _⟩ fun s e s' ⟨hheld, hle⟩ _ hstep => ⟨hheld.step hstep, ?_⟩
    cases hstep with
    | mk before after hlocal => exact local_semaphore_le hle hlocal
  calc s.weight Task.awaited
    _ ≤ s.weight Task.tokens := Tasks.weight_mono Task.awaited_le_tokens s
    _ = s.shared.semaphore := hinv.1.symm
    _ ≤ p.tokens := hinv.2

/-- In every reachable state in which no read that was given up is still running, the reads
in progress are at most `MaxParallelReads`. -/
theorem inProgress_le_maxParallelReads (p : Prefetcher) (calls : List Call)
    (s : Tasks Shared Task) (hrun : Reach p.Step (fun _ _ => True) (start calls) s)
    (hnone : ∀ index, Task.orphan index false ∉ s.tasks) :
    (inProgress s : Int) ≤ p.config.maxParallelReads.toInt := by
  have hle := awaited_le hrun
  have hzero := abandoned_eq_zero.mpr hnone
  have hpos := tokens_pos p
  unfold inProgress
  unfold Prefetcher.tokens at hle hpos
  omega

/-- Chunks of eight bytes, one read at a time, one retry. -/
def impatient : Config := ⟨8, 8, 1, 1, 1, 1⟩

/-- What is shared once the first chunk is being read. -/
def readingShared : Shared :=
  { Shared.initial.newCall 0 with
    cache := newChunkCache.evictBefore 0
    semaphore := 1
    wg := 2 }

/-- A call gets to the read of its chunk before the goroutine it has started moves. -/
theorem reach_reading (rest : List Task) :
    Reach (Prefetcher.new 8 [impatient]).Step (fun _ _ => True)
      ⟨Shared.initial, .readAt readSix .begin :: rest⟩
      ⟨readingShared, .readAt readSix (.fetch 0 [] (.read 0 0 none)) ::
        (rest ++ [.required 0 .start])⟩ := by
  let p := Prefetcher.new 8 [impatient]
  let sh₁ : Shared := { Shared.initial with wg := 1 }
  let sh₂ : Shared := { sh₁ with cache := newChunkCache.evictBefore 0 }
  let sh₃ : Shared := { sh₂ with wg := 2 }
  have hstart : p.startChunk readSix = 0 := by decide
  have hend : p.endChunk readSix = 0 := by decide
  have hends : p.endsInChunk readSix = false := by decide
  have hbegin : p.ReadStep readSix Shared.initial .begin .tau sh₁ .evict [] := by
    have h : p.ReadStep readSix Shared.initial .begin .tau sh₁ (p.enter readSix) [] :=
      .begin rfl
    rwa [enter_evict (by decide) (by decide)] at h
  have hevict : p.ReadStep readSix sh₁ .evict .tau sh₂ (.required 0) [] := by
    have h : p.ReadStep readSix sh₁ .evict .tau _ _ [] := .evict
    rwa [hends, hstart] at h
  have hmiss : p.ReadStep readSix sh₂ (.required 0) .tau sh₂ (.register 0) [] :=
    .requiredMiss (by decide) rfl
  have hregister : p.ReadStep readSix sh₂ (.register 0) .tau sh₃ (.required 1)
      [.required 0 .start] := .register rfl
  have hahead : p.ReadStep readSix sh₃ (.required 1) .tau sh₃ (.ahead 1 0) [] := by
    have h : p.ReadStep readSix sh₃ (.required 1) .tau sh₃ _ [] := .requiredEnd (by decide)
    rwa [hend] at h
  have hcopy : p.ReadStep readSix sh₃ (.ahead 1 0) .tau sh₃ (.copy 0 []) [] := by
    have h : p.ReadStep readSix sh₃ (.ahead 1 0) .tau sh₃ _ [] := .aheadEnd (by decide)
    rwa [hstart] at h
  have hfetch : p.ReadStep readSix sh₃ (.copy 0 []) .tau sh₃ (.fetch 0 [] .start) [] :=
    .copyMiss (by decide) (by decide) rfl
  have hlead : p.ReadStep readSix sh₃ (.fetch 0 [] .start) .tau (sh₃.newCall 0)
      (.fetch 0 [] (.lookup 0)) [] := .fetch (.lead rfl)
  have hlook : p.ReadStep readSix (sh₃.newCall 0) (.fetch 0 [] (.lookup 0)) .tau
      (sh₃.newCall 0) (.fetch 0 [] (.acquire 0)) [] := .fetch (.miss rfl)
  have hacquire : p.ReadStep readSix (sh₃.newCall 0) (.fetch 0 [] (.acquire 0)) .tau
      readingShared (.fetch 0 [] (.read 0 0 none)) [] := .fetch (.acquire (by decide))
  have hstep : ∀ {sh sh' : Shared} {r r' : Reading} (rest new : List Task),
      p.ReadStep readSix sh r .tau sh' r' new →
      Reach p.Step (fun _ _ => True) ⟨sh, .readAt readSix r :: rest⟩
        ⟨sh', .readAt readSix r' :: (rest ++ new)⟩ :=
    fun rest new h => .single trivial (.mk [] rest (.readAt h))
  have hquiet : ∀ {sh sh' : Shared} {r r' : Reading} (rest : List Task),
      p.ReadStep readSix sh r .tau sh' r' [] →
      Reach p.Step (fun _ _ => True) ⟨sh, .readAt readSix r :: rest⟩
        ⟨sh', .readAt readSix r' :: rest⟩ := fun rest h => by
    simpa only [List.append_nil] using hstep rest [] h
  exact (hquiet _ hbegin).trans <| (hquiet _ hevict).trans <| (hquiet _ hmiss).trans <|
    (hstep _ _ hregister).trans <| (hquiet _ hahead).trans <| (hquiet _ hcopy).trans <|
    (hquiet _ hfetch).trans <| (hquiet _ hlead).trans <| (hquiet _ hlook).trans <|
    hquiet _ hacquire

/-- The semaphore is all taken, and nothing has been given up. -/
theorem one_read_in_progress :
    ∃ s, Reach (Prefetcher.new 8 [impatient]).Step (fun _ _ => True)
        (start [.readAt readSix]) s ∧ inProgress s = 1 ∧
      (inProgress s : Int) ≤ (Prefetcher.new 8 [impatient]).config.maxParallelReads.toInt := by
  have hrun := reach_reading []
  refine ⟨_, hrun, rfl, ?_⟩
  exact inProgress_le_maxParallelReads _ [.readAt readSix] _ hrun fun index h => by simp at h

/-- The first attempt is not the last one. -/
theorem impatient_afterAttempt :
    (Prefetcher.new 8 [impatient]).afterAttempt 0 0 = .retry 0 1 :=
  if_pos (by decide)

/-- The read is given up when its time is over; the retry starts a second one next to it. -/
theorem two_reads_in_progress :
    ∃ s, Reach (Prefetcher.new 8 [impatient]).Step (fun _ _ => True)
        (start [.readAt readSix]) s ∧
      (Prefetcher.new 8 [impatient]).config.maxParallelReads = 1 ∧ inProgress s = 2 := by
  let p := Prefetcher.new 8 [impatient]
  let reading : Task := .readAt readSix (.fetch 0 [] (.read 0 0 none))
  let required : Task := .required 0 .start
  have hfetch : p.FetchStep 0 readingShared (.read 0 0 none) .expire readingShared (.retry 0 1)
      [.orphan 0 false] := by
    have h : p.FetchStep 0 readingShared (.read 0 0 none) .expire readingShared _ _ :=
      .readExpired
    rwa [impatient_afterAttempt] at h
  have hexpire : p.Step ⟨readingShared, [reading, required]⟩ .expire
      ⟨readingShared, [.readAt readSix (.fetch 0 [] (.retry 0 1)), required,
        .orphan 0 false]⟩ :=
    .mk [] [required] (.readAt (.fetch hfetch))
  have hretry : p.Step
      ⟨readingShared, [.readAt readSix (.fetch 0 [] (.retry 0 1)), required,
        .orphan 0 false]⟩ .tau
      ⟨readingShared, [.readAt readSix (.fetch 0 [] (.read 0 1 none)), required,
        .orphan 0 false]⟩ :=
    .mk [] [required, .orphan 0 false] (.readAt (.fetch .retry))
  exact ⟨_, ((reach_reading []).tail trivial hexpire).tail trivial hretry, rfl, rfl⟩

/-! ## Who is registered -/

/-- The call or goroutine is between `beginOperation` and `p.wg.Done`. -/
def Reading.registered : Reading → Nat
  | .begin | .returned _ _ => 0
  | _ => 1

def Required.registered : Required → Nat
  | .returned => 0
  | _ => 1

def ReadAhead.registered : ReadAhead → Nat
  | .returned => 0
  | _ => 1

def Task.registered : Task → Nat
  | .readAt _ r => r.registered
  | .required _ r => r.registered
  | .readAhead _ r => r.registered
  | .close _ | .orphan _ _ => 0

/-- Where a `Close` call is, the prefetcher is closed, and the wait is over. -/
def Task.ClosingOk (sh : Shared) : Task → Prop
  | .close .wait => sh.closed = true
  | .close .clear => sh.closed = true ∧ sh.wg = 0
  | _ => True

structure Lifecycle (s : Tasks Shared Task) : Prop where
  registered : s.shared.wg = s.weight Task.registered
  closing : ∀ t ∈ s.tasks, t.ClosingOk s.shared

/-- What can move in a closed prefetcher in which nobody is registered. -/
inductive Leftover : LocalStep Shared Task Event
  | refused {sh : Shared} {rd : Read} :
      Leftover sh (.readAt rd .begin) .tau sh
        (.readAt rd (.returned [] (some .prefetcherClosed))) []
  | close {sh sh' : Shared} {c c' : Closing} {e : Event} (h : CloseStep sh c e sh' c') :
      Leftover sh (.close c) e sh' (.close c') []
  | orphan {sh : Shared} {index : Int64} {a : Answer} :
      Leftover sh (.orphan index false) (.answer index a) sh (.orphan index true) []

section

variable {p : Prefetcher} {sh sh' : Shared} {e : Event} {new : List Task}

theorem orphans_registered (index : Int64) (result : Option Answer) :
    ((Prefetcher.orphans index result).map Task.registered).sum = 0 := by
  cases result with
  | none => rfl
  | some a => rfl

/-- A fetch registers nobody. -/
theorem fetch_wg {index : Int64} {f f' : Fetch} (h : p.FetchStep index sh f e sh' f' new) :
    sh'.wg = sh.wg ∧ sh'.closed = sh.closed ∧ (new.map Task.registered).sum = 0 := by
  cases h with
  | readExpired | readCancelled _ => exact ⟨rfl, rfl, orphans_registered _ _⟩
  | _ => exact ⟨rfl, rfl, rfl⟩

theorem enter_registered (rd : Read) : (p.enter rd).registered = 1 := by
  unfold Prefetcher.enter
  cases p.validateRead rd with
  | some e => rfl
  | none =>
      dsimp only
      split
      · rfl
      · rfl

theorem copyFrom_registered (rd : Read) (index : Int64) (got data : Bytes) :
    (p.copyFrom rd index got data).registered = 1 := by
  unfold Prefetcher.copyFrom
  split
  · rfl
  · rfl

theorem read_registered {rd : Read} {r r' : Reading} (hle : r.registered ≤ sh.wg)
    (h : p.ReadStep rd sh r e sh' r' new) :
    sh'.wg + r.registered = sh.wg + r'.registered + (new.map Task.registered).sum := by
  cases h with
  | fetch hf =>
      obtain ⟨hwg, -, hnew⟩ := fetch_wg hf
      rw [hwg, hnew]
      rfl
  | begin _ =>
      rw [enter_registered]
      rfl
  | evict =>
      split
      · rfl
      · rfl
  | copyHit _ _ _ | fetched =>
      rw [copyFrom_registered]
      rfl
  | done =>
      have hle : 1 ≤ sh.wg := hle
      simp only [Reading.registered, List.map_nil, List.sum_nil]
      omega
  | _ => rfl

/-- The counter of the wait group changes with the number of those registered. -/
theorem local_registered {t t' : Task} (hle : t.registered ≤ sh.wg)
    (h : p.LocalStep sh t e sh' t' new) :
    sh'.wg + t.registered = sh.wg + t'.registered + (new.map Task.registered).sum := by
  cases h with
  | readAt hr => exact read_registered hle hr
  | required hr =>
      cases hr with
      | fetch hf =>
          obtain ⟨hwg, -, hnew⟩ := fetch_wg hf
          rw [hwg, hnew]
          rfl
      | done =>
          have hle : 1 ≤ sh.wg := hle
          simp only [Task.registered, Required.registered, List.map_nil, List.sum_nil]
          omega
      | _ => rfl
  | readAhead hr =>
      cases hr with
      | done =>
          have hle : 1 ≤ sh.wg := hle
          simp only [Task.registered, ReadAhead.registered, List.map_nil, List.sum_nil]
          omega
      | _ => rfl
  | close hc =>
      cases hc with
      | _ => rfl
  | orphan => rfl

/-- A closed prefetcher stays closed. -/
theorem local_closed {t t' : Task} (hclosed : sh.closed = true)
    (h : p.LocalStep sh t e sh' t' new) : sh'.closed = true := by
  cases h with
  | readAt hr =>
      cases hr with
      | fetch hf => exact (fetch_wg hf).2.1.trans hclosed
      | _ => exact hclosed
  | required hr =>
      cases hr with
      | fetch hf => exact (fetch_wg hf).2.1.trans hclosed
      | _ => exact hclosed
  | readAhead hr =>
      cases hr with
      | _ => exact hclosed
  | close hc =>
      cases hc with
      | start _ => rfl
      | _ => exact hclosed
  | orphan => exact hclosed

/-- Nobody registers any more, so nobody who is registered moves. -/
theorem leftover_of_local {t t' : Task} (hclosed : sh.closed = true) (ht : t.registered = 0)
    (h : p.LocalStep sh t e sh' t' new) : Leftover sh t e sh' t' new := by
  cases h with
  | readAt hr =>
      cases hr with
      | refused _ => exact .refused
      | begin hopen =>
          rw [hclosed] at hopen
          cases hopen
      | _ => cases ht
  | required hr =>
      cases hr with
      | _ => cases ht
  | readAhead hr =>
      cases hr with
      | _ => cases ht
  | close hc => exact .close hc
  | orphan => exact .orphan

end

namespace Leftover

variable {sh sh' : Shared} {t t' : Task} {e : Event} {new : List Task}

theorem wg_eq (h : Leftover sh t e sh' t' new) : sh'.wg = sh.wg := by
  cases h with
  | refused | orphan => rfl
  | close hc =>
      cases hc with
      | _ => rfl

theorem closed (hclosed : sh.closed = true) (h : Leftover sh t e sh' t' new) :
    sh'.closed = true := by
  cases h with
  | refused | orphan => exact hclosed
  | close hc =>
      cases hc with
      | start _ => rfl
      | _ => exact hclosed

/-- The cache is left alone or cleared. -/
theorem cache_eq (h : Leftover sh t e sh' t' new) :
    sh'.cache = sh.cache ∨ sh'.cache = sh.cache.clear := by
  cases h with
  | refused | orphan => exact .inl rfl
  | close hc =>
      cases hc with
      | clear => exact .inr rfl
      | _ => exact .inl rfl

/-- A call that had not begun is refused. -/
theorem of_begin {rd : Read} (h : Leftover sh (.readAt rd .begin) e sh' t' new) :
    t' = .readAt rd (.returned [] (some .prefetcherClosed)) := by
  cases h with
  | refused => rfl

/-- What has returned does not move. -/
theorem not_returned {rd : Read} {got : Bytes} {err : Option Err} :
    ¬ Leftover sh (.readAt rd (.returned got err)) e sh' t' new := by
  intro h
  cases h

/-- No read is given up. -/
theorem abandoned_le (h : Leftover sh t e sh' t' new) :
    t'.abandoned + (new.map Task.abandoned).sum ≤ t.abandoned := by
  cases h with
  | refused | close _ => exact Nat.le_refl 0
  | orphan => exact Nat.zero_le 1

end Leftover

/-! ## After `Close` -/

theorem Lifecycle.start (calls : List Call) : Lifecycle (start calls) := by
  have hcall : ∀ t ∈ (Prefetch.start calls).tasks, ∃ call, Call.task call = t := fun t ht => by
    obtain ⟨call, -, hcall⟩ := List.mem_map.mp ht
    exact ⟨call, hcall⟩
  constructor
  · refine (Tasks.weight_eq_zero.mpr fun t ht => ?_).symm
    obtain ⟨call, rfl⟩ := hcall t ht
    cases call with
    | readAt rd => rfl
    | close => rfl
  · intro t ht
    obtain ⟨call, rfl⟩ := hcall t ht
    cases call with
    | readAt rd => trivial
    | close => trivial

section

variable {p : Prefetcher} {s s' : Tasks Shared Task} {e : Event}

theorem Lifecycle.unregistered (h : Lifecycle s) (hwg : s.shared.wg = 0) {t : Task}
    (ht : t ∈ s.tasks) : t.registered = 0 :=
  Tasks.weight_eq_zero.mp (h.registered.symm.trans hwg) t ht

/-- A `Close` call finds what it has waited for. -/
theorem local_closingOk {sh sh' : Shared} {t t' : Task} {new : List Task}
    (ht : t.ClosingOk sh) (h : p.LocalStep sh t e sh' t' new) :
    t'.ClosingOk sh' ∧ ∀ u ∈ new, u.ClosingOk sh' := by
  have hfetch : ∀ {index : Int64} {f f' : Fetch}, p.FetchStep index sh f e sh' f' new →
      ∀ u ∈ new, u.ClosingOk sh' := by
    intro index f f' hf u hu
    cases hf with
    | @readExpired _ _ result | @readCancelled _ _ result _ =>
        cases result with
        | none =>
            cases List.mem_singleton.mp hu
            trivial
        | some a => cases hu
    | _ => cases hu
  cases h with
  | readAt hr =>
      cases hr with
      | fetch hf => exact ⟨trivial, hfetch hf⟩
      | register _ | registerAhead _ =>
          refine ⟨trivial, fun u hu => ?_⟩
          cases List.mem_singleton.mp hu
          trivial
      | _ => exact ⟨trivial, List.forall_mem_nil _⟩
  | required hr =>
      cases hr with
      | fetch hf => exact ⟨trivial, hfetch hf⟩
      | _ => exact ⟨trivial, List.forall_mem_nil _⟩
  | readAhead hr => exact ⟨trivial, List.forall_mem_nil _⟩
  | close hc =>
      refine ⟨?_, List.forall_mem_nil _⟩
      cases hc with
      | start _ => rfl
      | again _ => trivial
      | wait hwg => exact ⟨ht, hwg⟩
      | clear => trivial
  | orphan => exact ⟨trivial, List.forall_mem_nil _⟩

theorem Lifecycle.step (hs : Lifecycle s) (h : p.Step s e s') : Lifecycle s' := by
  refine ⟨Tasks.weight_eq (g := Shared.wg) h hs.registered local_registered, ?_⟩
  have hunregistered := fun (hwg : s.shared.wg = 0) t => hs.unregistered (t := t) hwg
  have hclosing := hs.closing
  cases h with
  | @mk before after sh sh' new t t' _ hlocal =>
      have ht : t ∈ before ++ t :: after := by simp
      obtain ⟨ht', hnew⟩ := local_closingOk (hclosing t ht) hlocal
      -- The other goroutines: what they have found stays so.
      have hothers : ∀ u : Task, u.ClosingOk sh → u.ClosingOk sh' := by
        intro u hu
        cases u with
        | close c =>
            cases c with
            | wait => exact local_closed hu hlocal
            | clear =>
                have hleft := leftover_of_local hu.1 (hunregistered hu.2 t ht) hlocal
                exact ⟨local_closed hu.1 hlocal, hleft.wg_eq.trans hu.2⟩
            | _ => trivial
        | _ => trivial
      intro u hu
      simp only [List.append_assoc, List.cons_append, List.mem_append, List.mem_cons] at hu
      rcases hu with hu | rfl | hu | hu
      · exact hothers u (hclosing u (by simp [hu]))
      · exact ht'
      · exact hothers u (hclosing u (by simp [hu]))
      · exact hnew u hu

/-- `Close` has returned. -/
structure Closed (s : Tasks Shared Task) : Prop extends Lifecycle s where
  closed : s.shared.closed = true
  wg : s.shared.wg = 0
  chunkMap : s.shared.cache.chunkMap = ∅
  intervalTree : s.shared.cache.intervalTree = .nil

/-- The step by which the `Close` call that has set the flag returns. -/
abbrev CloseReturns (p : Prefetcher) : Tasks Shared Task → Event → Tasks Shared Task → Prop :=
  TaskStep (LocalStep.only p.LocalStep (· = .close .clear))

theorem Closed.of_returns (hs : Lifecycle s) (h : CloseReturns p s e s') : Closed s' := by
  have hs' := hs.step h.of_only
  have hclosing := hs.closing
  cases h with
  | @mk before after sh sh' new t t' _ h =>
      obtain ⟨rfl, hlocal⟩ := h
      have hfound : sh.closed = true ∧ sh.wg = 0 := hclosing (.close .clear) (by simp)
      cases hlocal with
      | close hc =>
          cases hc with
          | clear => exact ⟨hs', hfound.1, hfound.2, rfl, rfl⟩

theorem Closed.leftover (hs : Closed s) (h : p.Step s e s') : TaskStep Leftover s e s' := by
  have hunregistered := fun t => hs.unregistered (t := t) hs.wg
  have hclosed := hs.closed
  cases h with
  | @mk before after sh sh' new t t' _ hlocal =>
      exact .mk before after (leftover_of_local hclosed (hunregistered t (by simp)) hlocal)

theorem Closed.step (hs : Closed s) (h : p.Step s e s') : Closed s' := by
  have hlife := hs.toLifecycle.step h
  have hleft := hs.leftover h
  have hclosed := hs.closed
  have hwg := hs.wg
  have hmap := hs.chunkMap
  have htree := hs.intervalTree
  cases hleft with
  | @mk before after sh sh' new t t' _ hlocal =>
      rcases hlocal.cache_eq with heq | heq
      · exact ⟨hlife, hlocal.closed hclosed, hlocal.wg_eq.trans hwg, heq ▸ hmap, heq ▸ htree⟩
      · exact ⟨hlife, hlocal.closed hclosed, hlocal.wg_eq.trans hwg,
          (congrArg ChunkCache.chunkMap heq).trans rfl,
          (congrArg ChunkCache.intervalTree heq).trans rfl⟩

/-- The steps that a goroutine that is left over has before it. -/
def Task.left : Task → Nat
  | .readAt _ .begin | .close .start | .close .clear | .orphan _ false => 1
  | .close .wait => 2
  | _ => 0

theorem Leftover.left_lt {sh sh' : Shared} {t t' : Task} {new : List Task}
    (hclosed : sh.closed = true) (h : Leftover sh t e sh' t' new) :
    t'.left + (new.map Task.left).sum < t.left := by
  cases h with
  | refused | orphan => exact Nat.zero_lt_one
  | close hc =>
      cases hc with
      | start hopen =>
          rw [hclosed] at hopen
          cases hopen
      | again _ | clear => exact Nat.zero_lt_one
      | wait _ => exact Nat.lt_succ_self 1

/-- A call that had not begun when `Close` returned. -/
theorem Closed.refused (hs : Closed s) (h : p.Step s e s') {i : Nat} {rd : Read}
    (hi : s.tasks[i]? = some (.readAt rd .begin) ∨
      s.tasks[i]? = some (.readAt rd (.returned [] (some .prefetcherClosed)))) :
    s'.tasks[i]? = some (.readAt rd .begin) ∨
      s'.tasks[i]? = some (.readAt rd (.returned [] (some .prefetcherClosed))) := by
  rcases hi with hi | hi
  · rcases (hs.leftover h).getElem? hi with hstays | ⟨t', new, hlocal, hmoved⟩
    · exact .inl hstays
    · exact .inr (hlocal.of_begin ▸ hmoved)
  · rcases (hs.leftover h).getElem? hi with hstays | ⟨t', new, hlocal, -⟩
    · exact .inr hstays
    · exact absurd hlocal Leftover.not_returned

end

/-- Once the `Close` call that has set the flag has returned: nobody is registered and the
cache is empty, now and later, and a `ReadAt` that had not begun returns nothing but
`ErrPrefetcherClosed`, and does return. -/
theorem close_final (p : Prefetcher) (calls : List Call) (s₁ s₂ : Tasks Shared Task) (e : Event)
    (hrun : Reach p.Step (fun _ _ => True) (start calls) s₁) (hclose : CloseReturns p s₁ e s₂) :
    (∀ s₃, Reach p.Step (fun _ _ => True) s₂ s₃ →
      (∀ t ∈ s₃.tasks, t.registered = 0) ∧
      s₃.shared.cache.chunkMap = ∅ ∧ s₃.shared.cache.intervalTree = .nil) ∧
    ∀ (i : Nat) (rd : Read), s₂.tasks[i]? = some (.readAt rd .begin) →
      (∀ s₃, Reach p.Step (fun _ _ => True) s₂ s₃ →
        s₃.tasks[i]? = some (.readAt rd .begin) ∨
          s₃.tasks[i]? = some (.readAt rd (.returned [] (some .prefetcherClosed)))) ∧
      Inevitable (Moves p.Step fun _ _ => True)
        (fun s => s.tasks[i]? = some (.readAt rd (.returned [] (some .prefetcherClosed)))) s₂ := by
  have hlife : Lifecycle s₁ := hrun.invariant (.start calls) fun _ _ _ h _ hstep => h.step hstep
  have hclosed : Closed s₂ := .of_returns hlife hclose
  refine ⟨fun s₃ hlater => ?_, fun i rd hi => ?_⟩
  · have h₃ : Closed s₃ := hlater.invariant hclosed fun _ _ _ h _ hstep => h.step hstep
    exact ⟨fun t ht => h₃.unregistered h₃.wg ht, h₃.chunkMap, h₃.intervalTree⟩
  · let I := fun s : Tasks Shared Task => Closed s ∧
      (s.tasks[i]? = some (.readAt rd .begin) ∨
        s.tasks[i]? = some (.readAt rd (.returned [] (some .prefetcherClosed))))
    have hI : ∀ s e s', I s → p.Step s e s' → I s' := by
      intro s e s' ⟨hs, hat⟩ hstep
      exact ⟨hs.step hstep, hs.refused hstep hat⟩
    refine ⟨fun s₃ hlater => (hlater.invariant (I := I) ⟨hclosed, .inl hi⟩
      fun s e s' h _ hstep => hI s e s' h hstep).2, ?_⟩
    refine Inevitable.of_rank (I := I) (Tasks.weight Task.left)
      (fun s s' h ⟨e, _, hstep⟩ => hI s e s' h hstep) ?_ ?_ ⟨hclosed, .inl hi⟩
    · intro s s' ⟨hs, _⟩ ⟨e, _, hstep⟩
      exact Tasks.weight_lt (hs.leftover hstep) fun _ h => h.left_lt hs.closed
    · intro s ⟨hs, hat⟩ hnot
      have hmem := List.mem_of_getElem? (hat.resolve_right hnot)
      obtain ⟨s', hstep⟩ := TaskStep.of_mem hmem
        (.readAt (.refused hs.closed) : p.LocalStep _ _ _ _ _ _)
      exact ⟨s', .tau, trivial, hstep⟩

/-- A `Close` that finds nothing to wait for, and a call that comes too late. -/
def idleClose (sh : Shared) (c : Closing) : Tasks Shared Task :=
  ⟨{ sh with closed := true }, [.close c, .readAt readSix .begin]⟩

theorem reach_idleClose (p : Prefetcher) :
    Reach p.Step (fun _ _ => True) (start [.close, .readAt readSix])
      (idleClose .initial .clear) := by
  have hset : p.Step (start [.close, .readAt readSix]) .tau (idleClose .initial .wait) :=
    .mk [] [Task.readAt readSix .begin] (.close (.start rfl))
  have hwait : p.Step (idleClose .initial .wait) .tau (idleClose .initial .clear) :=
    .mk [] [Task.readAt readSix .begin] (.close (.wait rfl))
  exact .head trivial hset (.single trivial hwait)

theorem idleClose_returns (p : Prefetcher) :
    CloseReturns p (idleClose .initial .clear) .tau
      (idleClose { Shared.initial with cache := newChunkCache.clear } .returned) :=
  .mk [] [Task.readAt readSix .begin] ⟨rfl, .close .clear⟩

theorem close_final_idle :
    Inevitable (Moves (Prefetcher.new 8 [configOf 4]).Step fun _ _ => True)
      (fun s => s.tasks[1]? =
        some (.readAt readSix (.returned [] (some .prefetcherClosed))))
      (idleClose { Shared.initial with cache := newChunkCache.clear } .returned) :=
  ((close_final _ _ _ _ _ (reach_idleClose _) (idleClose_returns _)).2 1 readSix rfl).2

/-! ## After `Close`, at the source -/

theorem Task.awaited_le_registered (t : Task) : t.awaited ≤ t.registered := by
  cases t with
  | readAt rd r =>
      cases r with
      | fetch index got f => exact f.awaited_le_one
      | _ => exact Nat.zero_le _
  | required index r =>
      cases r with
      | fetch f => exact f.awaited_le_one
      | _ => exact Nat.zero_le _
  | readAhead index r =>
      cases r with
      | read => exact Nat.le_refl 1
      | _ => exact Nat.zero_le _
  | close c => exact Nat.le_refl 0
  | orphan index ended => exact Nat.le_refl 0

/-- In a closed prefetcher the reads in progress are those that were given up. -/
theorem Closed.inProgress_eq {s : Tasks Shared Task} (hs : Closed s) :
    inProgress s = s.weight Task.abandoned := by
  have hle := Tasks.weight_mono Task.awaited_le_registered s
  have hwg := hs.registered
  rw [hs.wg] at hwg
  unfold inProgress
  omega

theorem CloseReturns.abandoned_eq {p : Prefetcher} {s s' : Tasks Shared Task} {e : Event}
    (h : CloseReturns p s e s') : s'.weight Task.abandoned = s.weight Task.abandoned := by
  cases h with
  | mk before after h =>
      obtain ⟨rfl, hlocal⟩ := h
      cases hlocal with
      | close hc => simp [Tasks.weight, Task.abandoned]

/-- Once the `Close` call that has set the flag has returned, no read is in progress and none
is started, if and only if no read that was given up was still running when it returned. -/
theorem close_final_source (p : Prefetcher) (calls : List Call) (s₁ s₂ : Tasks Shared Task)
    (e : Event) (hrun : Reach p.Step (fun _ _ => True) (start calls) s₁)
    (hclose : CloseReturns p s₁ e s₂) :
    (∀ s₃, Reach p.Step (fun _ _ => True) s₂ s₃ → inProgress s₃ = 0) ↔
      ∀ index, Task.orphan index false ∉ s₁.tasks := by
  have hlife : Lifecycle s₁ := hrun.invariant (.start calls) fun _ _ _ h _ hstep => h.step hstep
  have hclosed : Closed s₂ := .of_returns hlife hclose
  rw [← abandoned_eq_zero, ← hclose.abandoned_eq]
  constructor
  · intro h
    rw [← hclosed.inProgress_eq]
    exact h s₂ (.refl _)
  · intro hnone s₃ hlater
    obtain ⟨h₃, hnone₃⟩ := hlater.invariant
      (I := fun s => Closed s ∧ s.weight Task.abandoned = 0) ⟨hclosed, hnone⟩
      fun s e s' ⟨hs, hzero⟩ _ hstep => ⟨hs.step hstep, by
        have hle := Tasks.budget_le (g := fun _ => 0) 0 (hs.leftover hstep) fun h => by
          simpa using h.abandoned_le
        omega⟩
    rw [h₃.inProgress_eq]
    exact hnone₃

/-- `Close` was called during the read, which was given up; the reader may still be at it. -/
def givenUp (ended : Bool) (c : Closing) : List Task :=
  [.readAt readSix (.returned [] (some .readFailed)), .close c, .required 0 .returned,
    .orphan 0 ended]

theorem givenUp_returns (p : Prefetcher) (sh : Shared) (ended : Bool) :
    CloseReturns p ⟨sh, givenUp ended .clear⟩ .tau
      ⟨{ sh with cache := sh.cache.clear }, givenUp ended .returned⟩ :=
  .mk [Task.readAt readSix (.returned [] (some .readFailed))]
    [Task.required 0 .returned, .orphan 0 ended] ⟨rfl, .close .clear⟩

theorem reach_givenUp :
    ∃ sh, Reach (Prefetcher.new 8 [impatient]).Step (fun _ _ => True)
      (start [.readAt readSix, .close]) ⟨sh, givenUp false .clear⟩ := by
  let p := Prefetcher.new 8 [impatient]
  let failed : Except Err Chunk := .error .readFailed
  let sh₁ : Shared := { readingShared with closed := true }
  let sh₂ : Shared := { sh₁ with semaphore := 0 }
  let sh₃ : Shared := sh₂.finishCall 0 0 failed
  let sh₄ : Shared := { sh₃ with wg := 1 }
  let sh₅ : Shared := { sh₄ with wg := 0 }
  let reading : Task := .readAt readSix (.fetch 0 [] (.read 0 0 none))
  let required : Task := .required 0 .start
  let others : List Task := [.close .wait, required, .orphan 0 false]
  let returned : Task := .readAt readSix (.returned [] (some .readFailed))
  have hfetch : p.FetchStep 0 sh₁ (.read 0 0 none) .tau sh₁ (.retry 0 1) [.orphan 0 false] := by
    have h : p.FetchStep 0 sh₁ (.read 0 0 none) .tau sh₁ _ _ := .readCancelled rfl
    rwa [impatient_afterAttempt] at h
  have hset : p.Step ⟨readingShared, [reading, .close .start, required]⟩ .tau
      ⟨sh₁, [reading, .close .wait, required]⟩ :=
    .mk [reading] [required] (.close (.start rfl))
  have hcancel : p.Step ⟨sh₁, [reading, .close .wait, required]⟩ .tau
      ⟨sh₁, .readAt readSix (.fetch 0 [] (.retry 0 1)) :: others⟩ :=
    .mk [] [Task.close .wait, required] (.readAt (.fetch hfetch))
  have hstop : p.Step ⟨sh₁, .readAt readSix (.fetch 0 [] (.retry 0 1)) :: others⟩ .tau
      ⟨sh₁, .readAt readSix (.fetch 0 [] (.release 0 failed)) :: others⟩ :=
    .mk [] others (.readAt (.fetch (.retryCancelled rfl)))
  have hrelease : p.Step ⟨sh₁, .readAt readSix (.fetch 0 [] (.release 0 failed)) :: others⟩ .tau
      ⟨sh₂, .readAt readSix (.fetch 0 [] (.finish 0 failed)) :: others⟩ :=
    .mk [] others (.readAt (.fetch .release))
  have hfinish : p.Step ⟨sh₂, .readAt readSix (.fetch 0 [] (.finish 0 failed)) :: others⟩ .tau
      ⟨sh₃, .readAt readSix (.fetch 0 [] (.returned failed)) :: others⟩ :=
    .mk [] others (.readAt (.fetch .finish))
  have hfailed : p.Step ⟨sh₃, .readAt readSix (.fetch 0 [] (.returned failed)) :: others⟩ .tau
      ⟨sh₃, .readAt readSix (.done [] (some .readFailed)) :: others⟩ :=
    .mk [] others (.readAt .fetchFailed)
  have hdone : p.Step ⟨sh₃, .readAt readSix (.done [] (some .readFailed)) :: others⟩ .tau
      ⟨sh₄, returned :: others⟩ :=
    .mk [] others (.readAt .done)
  have hrequired : p.Step ⟨sh₄, returned :: others⟩ .tau
      ⟨sh₄, [returned, .close .wait, .required 0 .done, .orphan 0 false]⟩ :=
    .mk [returned, .close .wait] [.orphan 0 false] (.required (.closed rfl))
  have hended : p.Step ⟨sh₄, [returned, .close .wait, .required 0 .done, .orphan 0 false]⟩ .tau
      ⟨sh₅, [returned, .close .wait, .required 0 .returned, .orphan 0 false]⟩ :=
    .mk [returned, .close .wait] [.orphan 0 false] (.required .done)
  have hwaited : p.Step
      ⟨sh₅, [returned, .close .wait, .required 0 .returned, .orphan 0 false]⟩ .tau
      ⟨sh₅, [returned, .close .clear, .required 0 .returned, .orphan 0 false]⟩ :=
    .mk [returned] [.required 0 .returned, .orphan 0 false] (.close (.wait rfl))
  refine ⟨sh₅, ?_⟩
  exact (reach_reading [.close .start]).trans <| .head trivial hset <| .head trivial hcancel <|
    .head trivial hstop <| .head trivial hrelease <| .head trivial hfinish <|
    .head trivial hfailed <| .head trivial hdone <| .head trivial hrequired <|
    .head trivial hended <| .single trivial hwaited

/-- The reader has come back by the time `Close` returns. -/
theorem close_final_source_ended :
    ∃ s₁ s₂, Reach (Prefetcher.new 8 [impatient]).Step (fun _ _ => True)
        (start [.readAt readSix, .close]) s₁ ∧
      CloseReturns (Prefetcher.new 8 [impatient]) s₁ .tau s₂ ∧
      ∀ s₃, Reach (Prefetcher.new 8 [impatient]).Step (fun _ _ => True) s₂ s₃ →
        inProgress s₃ = 0 := by
  obtain ⟨sh, hrun⟩ := reach_givenUp
  have hended : (Prefetcher.new 8 [impatient]).Step ⟨sh, givenUp false .clear⟩
      (.answer 0 ⟨[], none⟩) ⟨sh, givenUp true .clear⟩ :=
    .mk [Task.readAt readSix (.returned [] (some .readFailed)), .close .clear,
      .required 0 .returned] [] .orphan
  have hrun := hrun.tail trivial hended
  have hclose := givenUp_returns (.new 8 [impatient]) sh true
  refine ⟨_, _, hrun, hclose, (close_final_source _ _ _ _ _ hrun hclose).mpr fun index => ?_⟩
  simp [givenUp]

/-- The reader is still at it when `Close` returns. -/
theorem read_after_close :
    ∃ s₁ s₂, Reach (Prefetcher.new 8 [impatient]).Step (fun _ _ => True)
        (start [.readAt readSix, .close]) s₁ ∧
      CloseReturns (Prefetcher.new 8 [impatient]) s₁ .tau s₂ ∧ inProgress s₂ = 1 := by
  obtain ⟨sh, hrun⟩ := reach_givenUp
  exact ⟨_, _, hrun, givenUp_returns _ sh false, rfl⟩

end BuilderShim.Prefetch
