/-
  Prefetch/Solo.lean --- every outcome happens.

  The converse of `outcome_of_reach`: if the reader answers a read of chunk `i` with
  `A i`, then each outcome of the sequential program over these answers is returned
  in some run, namely the one in which the call runs alone and the goroutines it
  starts come too late.
-/
import BuilderShim.Prefetch.Outcome

set_option autoImplicit false

namespace BuilderShim.Prefetch

open BuilderShim.Foundation

/-- The reader answers according to `A`, and nothing times out. -/
def AnswersBy (A : Int64 → Answer) (_ : Tasks Shared Task) (e : Event) : Prop :=
  e = .tau ∨ ∃ index, e = .answer index (A index)

/-- Nothing is in flight, and the cache holds what the reader answers. -/
structure Quiet (A : Int64 → Answer) (sh : Shared) : Prop where
  cache : sh.cache.Holds fun index data => data = (A index).data
  semaphore : sh.semaphore = 0
  flights : ∀ index, sh.flights index = none
  closed : sh.closed = false

/-- The call of `rd`, running alone, gets from the one point to the other. -/
def Solo (p : Prefetcher) (A : Int64 → Answer) (rd : Read) (sh : Shared) (r : Reading)
    (sh' : Shared) (r' : Reading) : Prop :=
  ∀ rest, ∃ rest', Reach p.Step (AnswersBy A) ⟨sh, .readAt rd r :: rest⟩
    ⟨sh', .readAt rd r' :: rest'⟩

section

variable {p : Prefetcher} {A : Int64 → Answer} {rd : Read}

namespace Solo

variable {r r' : Reading} {sh sh' : Shared} {new : List Task}

theorem trans {sh'' : Shared} {r'' : Reading} (h : Solo p A rd sh r sh' r')
    (h' : Solo p A rd sh' r' sh'' r'') : Solo p A rd sh r sh'' r'' := by
  intro rest
  obtain ⟨rest', hrun⟩ := h rest
  obtain ⟨rest'', hrun'⟩ := h' rest'
  exact ⟨rest'', hrun.trans hrun'⟩

theorem event {e : Event} (he : e = .tau ∨ ∃ index, e = .answer index (A index))
    (h : p.ReadStep rd sh r e sh' r' new) : Solo p A rd sh r sh' r' := by
  intro rest
  have hstep := TaskStep.mk [] rest (.readAt h : p.LocalStep _ _ _ _ _ _)
  exact ⟨rest ++ new, .single he hstep⟩

theorem step (h : p.ReadStep rd sh r .tau sh' r' new) : Solo p A rd sh r sh' r' :=
  event (.inl rfl) h

theorem fetch {f f' : Fetch} {e : Event} {index : Int64} {got : Bytes}
    (he : e = .tau ∨ ∃ index, e = .answer index (A index))
    (h : p.FetchStep index sh f e sh' f' new) :
    Solo p A rd sh (.fetch index got f) sh' (.fetch index got f') :=
  event he (.fetch h)

end Solo

theorem tokens_pos (p : Prefetcher) : 0 < p.tokens := by
  have h := Int64.lt_iff_toInt_lt.mp p.parallel_pos
  unfold Prefetcher.tokens
  simp only [Int64.toInt_zero] at h
  omega

variable {index : Int64} {sh : Shared} {got : Bytes}

/-- A chunk that is not in the cache is fetched. -/
theorem solo_fetch (p : Prefetcher) (rd : Read) (hA : ∀ index, (A index).ok = true)
    (hq : Quiet A sh) (got : Bytes) (hmiss : sh.cache.hasChunk index = false) :
    ∃ sh' ch, Quiet A sh' ∧ ch.data = (A index).data ∧
      Solo p A rd sh (.fetch index got .start) sh' (.fetch index got (.returned (.ok ch))) := by
  let ch : Chunk := ⟨index, (A index).data, 0⟩
  let sh₁ := sh.newCall index
  let sh₂ := { sh₁ with semaphore := sh₁.semaphore + 1 }
  let sh₃ := { sh₂ with cache := sh₂.cache.addChunk .stored 0 ch }
  let sh₄ := { sh₃ with semaphore := sh₃.semaphore - 1 }
  let sh₅ := sh₄.finishCall index sh.nextCall (.ok ch)
  have hfree : sh₁.semaphore < p.tokens := by
    have : sh₁.semaphore = 0 := hq.semaphore
    have := tokens_pos p
    omega
  have hquiet : Quiet A sh₅ := by
    refine ⟨hq.cache.addChunk .stored 0 rfl, ?_, fun i => ?_, hq.closed⟩
    · show sh.semaphore + 1 - 1 = 0
      rw [hq.semaphore]
    · show Function.update (Function.update sh.flights index _) index none i = none
      by_cases hi : i = index
      · subst hi
        rw [Function.update_self]
      · rw [Function.update_of_ne hi, Function.update_of_ne hi]
        exact hq.flights i
  refine ⟨sh₅, ch, hquiet, rfl, ?_⟩
  have hlead : Solo p A rd sh (.fetch index got .start) sh₁ (.fetch index got (.lookup _)) :=
    .fetch (.inl rfl) (.lead (hq.flights index))
  have hlook : Solo p A rd sh₁ (.fetch index got (.lookup sh.nextCall)) sh₁
      (.fetch index got (.acquire sh.nextCall)) :=
    .fetch (.inl rfl) (.miss hmiss)
  have hacquire : Solo p A rd sh₁ (.fetch index got (.acquire sh.nextCall)) sh₂
      (.fetch index got (.read sh.nextCall 0 none)) :=
    .fetch (.inl rfl) (.acquire hfree)
  have hanswer : Solo p A rd sh₂ (.fetch index got (.read sh.nextCall 0 none)) sh₂
      (.fetch index got (.read sh.nextCall 0 (some (A index)))) :=
    .fetch (.inr ⟨index, rfl⟩) .answer
  have hread : Solo p A rd sh₂ (.fetch index got (.read sh.nextCall 0 (some (A index)))) sh₂
      (.fetch index got (.add sh.nextCall ch)) :=
    .fetch (.inl rfl) (.readOk (hA index))
  have hadd : Solo p A rd sh₂ (.fetch index got (.add sh.nextCall ch)) sh₃
      (.fetch index got (.release sh.nextCall (.ok ch))) :=
    .fetch (.inl rfl) (.add .stored 0)
  have hrelease : Solo p A rd sh₃ (.fetch index got (.release sh.nextCall (.ok ch))) sh₄
      (.fetch index got (.finish sh.nextCall (.ok ch))) :=
    .fetch (.inl rfl) .release
  have hfinish : Solo p A rd sh₄ (.fetch index got (.finish sh.nextCall (.ok ch))) sh₅
      (.fetch index got (.returned (.ok ch))) :=
    .fetch (.inl rfl) .finish
  exact hlead.trans (hlook.trans (hacquire.trans (hanswer.trans (hread.trans
    (hadd.trans (hrelease.trans hfinish))))))

/-- Nothing has happened yet that the cache would show. -/
structure Fresh (A : Int64 → Answer) (sh : Shared) : Prop extends Quiet A sh where
  empty : ∀ index, sh.cache.hasChunk index = false

theorem Fresh.registered (hf : Fresh A sh) : Fresh A { sh with wg := sh.wg + 1 } :=
  ⟨⟨hf.cache, hf.semaphore, hf.flights, hf.closed⟩, hf.empty⟩

theorem toInt_succ {bound : Int64} (hi : index ≤ bound) (hb : bound < Int64.maxValue) :
    (index + 1).toInt = index.toInt + 1 := by
  have h1 := Int64.le_iff_toInt_le.mp hi
  have h2 := Int64.lt_iff_toInt_lt.mp hb
  have h3 := Int64.le_toInt index
  have hmax : Int64.maxValue.toInt = 2 ^ 63 - 1 := by decide
  have hone : (1 : Int64).toInt = 1 := by decide
  rw [Int64.toInt_add, hone]
  exact Int.bmod_eq_of_le (by omega) (by omega)

/-- The loop that schedules the required chunks ends. -/
theorem solo_required (hmax : p.endChunk rd < Int64.maxValue) (hf : Fresh A sh) (index : Int64) :
    ∃ sh', Fresh A sh' ∧
      Solo p A rd sh (.required index) sh' (.ahead (p.endChunk rd + 1) 0) := by
  induction hn : ((p.endChunk rd).toInt - index.toInt + 1).toNat generalizing index sh with
  | zero =>
      have hi : ¬ index ≤ p.endChunk rd := by
        intro hle
        have := Int64.le_iff_toInt_le.mp hle
        omega
      exact ⟨sh, hf, .step (.requiredEnd hi)⟩
  | succ n ih =>
      have hi : index ≤ p.endChunk rd := Int64.le_iff_toInt_le.mpr (by omega)
      have hsucc := toInt_succ hi hmax
      obtain ⟨sh', hf'', hrest⟩ := ih hf.registered (index + 1) (by omega)
      refine ⟨sh', hf'', ?_⟩
      have hmiss : Solo p A rd sh (.required index) sh (.register index) :=
        .step (.requiredMiss hi (hf.empty index))
      exact hmiss.trans (Solo.trans (.step (.register hf.closed)) hrest)

/-- The loop that schedules the reading ahead ends. -/
theorem solo_ahead (p : Prefetcher) (rd : Read) (hf : Fresh A sh) (index scheduled : Int64) :
    ∃ sh', Fresh A sh' ∧
      Solo p A rd sh (.ahead index scheduled) sh' (.copy (p.startChunk rd) []) := by
  induction hn : (p.readAheadLimit.toInt - scheduled.toInt).toNat
      generalizing index scheduled sh with
  | zero =>
      refine ⟨sh, hf, .step (.aheadEnd ?_)⟩
      rintro ⟨_, hs⟩
      have := Int64.lt_iff_toInt_lt.mp hs
      omega
  | succ n ih =>
      by_cases hi : index ≤ p.windowEndChunk (p.startChunk rd)
      · have hs : scheduled < p.readAheadLimit := Int64.lt_iff_toInt_lt.mpr (by omega)
        have hsucc : (scheduled + 1).toInt = scheduled.toInt + 1 := by
          have h1 := Int64.lt_iff_toInt_lt.mp hs
          have h2 := Int64.toInt_lt p.readAheadLimit
          have h3 := Int64.le_toInt scheduled
          have hone : (1 : Int64).toInt = 1 := by decide
          rw [Int64.toInt_add, hone]
          exact Int.bmod_eq_of_le (by omega) (by omega)
        obtain ⟨sh', hf'', hrest⟩ := ih hf.registered (index + 1) (scheduled + 1) (by omega)
        refine ⟨sh', hf'', ?_⟩
        have hmiss : Solo p A rd sh (.ahead index scheduled) sh (.registerAhead index scheduled) :=
          .step (.aheadMiss hi hs (hf.empty index))
        exact hmiss.trans (Solo.trans (.step (.registerAhead hf.closed)) hrest)
      · exact ⟨sh, hf, .step (.aheadEnd fun h => hi h.1)⟩

/-- One round of `copyChunks`, from the cache or by a fetch. -/
theorem solo_copy (hA : ∀ index, (A index).ok = true) (hq : Quiet A sh) (hi : index ≤ p.endChunk rd)
    (hlen : got.length < rd.len) :
    ∃ sh', Quiet A sh' ∧
      Solo p A rd sh (.copy index got) sh' (p.copyFrom rd index got (A index).data) := by
  cases hhas : sh.cache.hasChunk index with
  | false =>
      obtain ⟨sh', ch, hq', hch, hfetch⟩ := solo_fetch p rd hA hq got hhas
      refine ⟨sh', hq', ?_⟩
      have hmiss : Solo p A rd sh (.copy index got) sh (.fetch index got .start) :=
        .step (.copyMiss hi hlen hhas)
      rw [← hch]
      exact hmiss.trans (hfetch.trans (.step .fetched))
  | true =>
      obtain ⟨hcache, hgot⟩ := hq.cache.getChunk index 0
      cases hch : (sh.cache.getChunk index 0).1 with
      | none =>
          unfold ChunkCache.getChunk at hch
          unfold ChunkCache.hasChunk at hhas
          cases hl : sh.cache.chunkMap.lookup index with
          | none => simp [hl] at hhas
          | some ch => simp [hl] at hch
      | some ch =>
          refine ⟨{ sh with cache := (sh.cache.getChunk index 0).2 },
            ⟨hcache, hq.semaphore, hq.flights, hq.closed⟩, ?_⟩
          rw [← (hgot ch hch).2]
          exact .step (.copyHit hi hlen hch)

theorem fresh_initial : Fresh A Shared.initial where
  cache := ChunkCache.holds_new
  semaphore := rfl
  flights := fun _ => rfl
  closed := rfl
  empty := fun _ => rfl

theorem Fresh.evictBefore (hf : Fresh A sh) (index : Int64) :
    Fresh A { sh with cache := sh.cache.evictBefore index } where
  cache := hf.cache.evictBefore index
  semaphore := hf.semaphore
  flights := hf.flights
  closed := hf.closed
  empty := by
    intro i
    have hnone := hf.empty i
    unfold ChunkCache.hasChunk at hnone ⊢
    cases hl : (sh.cache.evictBefore index).chunkMap.lookup i with
    | none => rfl
    | some ch =>
        have hl' : sh.cache.chunkMap.lookup i = some ch := by
          unfold ChunkCache.evictBefore at hl
          split at hl
          · exact hl
          · exact ChunkCache.lookup_delete hl
        rw [hl'] at hnone
        cases hnone

/-- `ReadAt` after `beginOperation`. -/
theorem solo_begin (p : Prefetcher) (A : Int64 → Answer) (rd : Read) :
    ∃ sh, Fresh A sh ∧ Solo p A rd Shared.initial .begin sh (p.enter rd) :=
  ⟨_, fresh_initial.registered, .step (.begin rfl)⟩

theorem enter_evict (h : p.validateRead rd = none) (hlen : rd.len ≠ 0) :
    p.enter rd = .evict := by
  simp [Prefetcher.enter, h, hlen]

/-- `ReadAt` before the loop that schedules the required chunks. -/
theorem solo_firstRequired (A : Int64 → Answer) (h : Admitted p rd)
    (hends : p.endsInChunk rd = false) :
    ∃ sh, Fresh A sh ∧ Solo p A rd Shared.initial .begin sh (.required (p.startChunk rd)) := by
  obtain ⟨sh, hf, hbegin⟩ := solo_begin p A rd
  rw [enter_evict h.1 h.2] at hbegin
  have hevict : Solo p A rd sh .evict
      { sh with cache := sh.cache.evictBefore (p.startChunk rd) }
      (.required (p.startChunk rd)) := by
    have hstep : p.ReadStep rd sh .evict .tau _ _ [] := .evict
    simp only [hends] at hstep
    exact .step hstep
  exact ⟨_, hf.evictBefore (p.startChunk rd), hbegin.trans hevict⟩

/-- Every point of the sequential copy loop is reached. -/
theorem solo_copied (hA : ∀ index, (A index).ok = true)
    (h : Copied p (fun index data => data = (A index).data) rd index got) :
    ∃ sh, Quiet A sh ∧ Solo p A rd Shared.initial .begin sh (.copy index got) := by
  induction h with
  | start hgo =>
      obtain ⟨sh₁, hf₁, hfirst⟩ := solo_firstRequired A ⟨hgo.valid, hgo.len⟩ hgo.ends
      obtain ⟨sh₂, hf₂, hrequired⟩ := solo_required hgo.max hf₁ (p.startChunk rd)
      obtain ⟨sh₃, hf₃, hahead⟩ := solo_ahead p rd hf₂ (p.endChunk rd + 1) 0
      exact ⟨sh₃, hf₃.toQuiet, hfirst.trans (hrequired.trans hahead)⟩
  | next _ hi hlen hgood hcopy ih =>
      obtain ⟨sh, hq, hrun⟩ := ih
      obtain ⟨sh', hq', hround⟩ := solo_copy (p := p) hA hq hi hlen
      subst hgood
      simp only [Prefetcher.copyFrom, hcopy] at hround
      exact ⟨sh', hq', hrun.trans hround⟩

/-- Every outcome over the answers `A` is returned in some run. -/
theorem outcome_realised (hA : ∀ index, (A index).ok = true) {err : Option Err}
    (h : Outcome p (fun index data => data = (A index).data) False rd got err) :
    ∃ s, Reach p.Step (AnswersBy A) (start [.readAt rd]) s ∧
      Task.readAt rd (.returned got err) ∈ s.tasks := by
  have hdone : ∃ sh, Solo p A rd Shared.initial .begin sh (.done got err) := by
    cases h with
    | closed hf => exact hf.elim
    | refused hv =>
        obtain ⟨sh, _, hbegin⟩ := solo_begin p A rd
        exact ⟨sh, by simpa [Prefetcher.enter, hv] using hbegin⟩
    | empty hv hlen =>
        obtain ⟨sh, _, hbegin⟩ := solo_begin p A rd
        exact ⟨sh, by simpa [Prefetcher.enter, hv, hlen] using hbegin⟩
    | ends hv hlen hend =>
        obtain ⟨sh, _, hbegin⟩ := solo_begin p A rd
        rw [enter_evict hv hlen] at hbegin
        have hstep : p.ReadStep rd sh .evict .tau _ _ [] := .evict
        simp only [hend, if_true] at hstep
        exact ⟨_, hbegin.trans (.step hstep)⟩
    | full hc hstop =>
        obtain ⟨sh, _, hrun⟩ := solo_copied hA hc
        exact ⟨sh, hrun.trans (.step (.copyEnd hstop))⟩
    | short hc hi hlen hgood hcopy =>
        obtain ⟨sh, hq, hrun⟩ := solo_copied hA hc
        obtain ⟨sh', _, hround⟩ := solo_copy (p := p) hA hq hi hlen
        subst hgood
        simp only [Prefetcher.copyFrom, hcopy] at hround
        exact ⟨sh', hrun.trans hround⟩
    | failed hf _ => exact hf.elim
  obtain ⟨sh, hrun⟩ := hdone
  obtain ⟨rest, hreach⟩ := (hrun.trans (.step .done)) []
  exact ⟨_, hreach, by simp⟩

end

end BuilderShim.Prefetch
