/-
  Prefetch/Progress.lean --- no `ReadAt` call waits for ever.

  A goroutine can be held up at two points: at the semaphore, and behind another
  fetch of the same chunk.  The tokens that are taken are those of goroutines that
  are past the first point (`TokensHeld`), and a fetch that others wait for is
  still being led by a goroutine (`FlightsLed`); so as long as a call has not
  returned, something can move.  Every move lowers the work that is left
  (`Task.work`), whatever is interleaved with what.
-/
import BuilderShim.Prefetch.ReadAt

set_option autoImplicit false

namespace BuilderShim.Prefetch

open BuilderShim.Foundation

/-! ## Who holds a token, who leads a flight -/

/-- The goroutine has a token of the semaphore. -/
def Fetch.tokens : Fetch → Nat
  | .read _ _ _ | .retry _ _ | .add _ _ | .release _ _ => 1
  | .start | .waiting _ | .lookup _ | .acquire _ | .finish _ _ | .returned _ => 0

/-- The goroutine runs the function of the call, for all that wait for it. -/
def Fetch.Leads (c : Nat) : Fetch → Prop
  | .lookup c' | .acquire c' | .read c' _ _ | .retry c' _ | .add c' _ | .release c' _
  | .finish c' _ => c' = c
  | .start | .waiting _ | .returned _ => False

/-- The fetch that a goroutine is in. -/
def Task.fetch? : Task → Option Fetch
  | .readAt _ (.fetch _ _ f) | .required _ (.fetch f) => some f
  | _ => none

def ReadAhead.tokens : ReadAhead → Nat
  | .read | .add _ | .release => 1
  | .start | .look | .acquire | .done | .returned => 0

def Task.tokens : Task → Nat
  | .readAt _ (.fetch _ _ f) | .required _ (.fetch f) => f.tokens
  | .readAhead _ r => r.tokens
  | _ => 0

def Task.Leads (c : Nat) (t : Task) : Prop := ∃ f, t.fetch? = some f ∧ f.Leads c

/-- The tokens taken are those the goroutines have. -/
def TokensHeld (s : Tasks Shared Task) : Prop := s.shared.semaphore = s.weight Task.tokens

/-- A call without a result is led by some goroutine. -/
def FlightsLed (s : Tasks Shared Task) : Prop :=
  ∀ c, c < s.shared.nextCall → (s.shared.calls c).result = none → ∃ t ∈ s.tasks, t.Leads c

section

variable {p : Prefetcher} {sh sh' : Shared} {e : Event} {new : List Task}

theorem orphans_tokens (index : Int64) (result : Option Answer) :
    ((Prefetcher.orphans index result).map Task.tokens).sum = 0 := by
  cases result with
  | none => rfl
  | some a => rfl

theorem afterAttempt_tokens (c : Nat) (attempt : Int64) :
    (p.afterAttempt c attempt).tokens = 1 := by
  unfold Prefetcher.afterAttempt
  split
  · rfl
  · rfl

theorem fetch_tokens {index : Int64} {f f' : Fetch} (hle : f.tokens ≤ sh.semaphore)
    (h : p.FetchStep index sh f e sh' f' new) :
    sh'.semaphore + f.tokens = sh.semaphore + f'.tokens + (new.map Task.tokens).sum := by
  cases h with
  | release =>
      have hle : 1 ≤ sh.semaphore := hle
      simp only [Fetch.tokens, List.map_nil, List.sum_nil]
      omega
  | readFailed _ =>
      rw [afterAttempt_tokens]
      rfl
  | readExpired | readCancelled _ =>
      rw [afterAttempt_tokens, orphans_tokens]
      rfl
  | _ => rfl

/-- What `copyChunks` goes on with holds no token. -/
theorem copyFrom_fetch? (rd : Read) (index : Int64) (got data : Bytes) :
    (Task.readAt rd (p.copyFrom rd index got data)).fetch? = none ∧
      (Task.readAt rd (p.copyFrom rd index got data)).tokens = 0 := by
  unfold Prefetcher.copyFrom
  split
  · exact ⟨rfl, rfl⟩
  · exact ⟨rfl, rfl⟩

theorem enter_fetch? (rd : Read) :
    (Task.readAt rd (p.enter rd)).fetch? = none ∧ (Task.readAt rd (p.enter rd)).tokens = 0 := by
  unfold Prefetcher.enter
  cases p.validateRead rd with
  | some e => exact ⟨rfl, rfl⟩
  | none =>
      dsimp only
      split
      · exact ⟨rfl, rfl⟩
      · exact ⟨rfl, rfl⟩

theorem evict_fetch? (rd : Read) (b : Bool) (index : Int64) :
    (Task.readAt rd (if b then .done [] (some .eof) else .required index)).fetch? = none ∧
      (Task.readAt rd (if b then .done [] (some .eof) else .required index)).tokens = 0 := by
  cases b with
  | true => exact ⟨rfl, rfl⟩
  | false => exact ⟨rfl, rfl⟩

theorem local_tokens {t t' : Task} (hle : t.tokens ≤ sh.semaphore)
    (h : p.LocalStep sh t e sh' t' new) :
    sh'.semaphore + t.tokens = sh.semaphore + t'.tokens + (new.map Task.tokens).sum := by
  cases h with
  | readAt hr =>
      cases hr with
      | fetch hf => exact fetch_tokens hle hf
      | begin _ =>
          rw [(enter_fetch? _).2]
          rfl
      | evict =>
          rw [(evict_fetch? _ _ _).2]
          rfl
      | copyHit _ _ _ | fetched =>
          rw [(copyFrom_fetch? _ _ _ _).2]
          rfl
      | _ => rfl
  | required hr =>
      cases hr with
      | fetch hf => exact fetch_tokens hle hf
      | _ => rfl
  | readAhead hr =>
      cases hr with
      | release =>
          have hle : 1 ≤ sh.semaphore := hle
          simp only [Task.tokens, ReadAhead.tokens, List.map_nil, List.sum_nil]
          omega
      | _ => rfl
  | close hc =>
      cases hc with
      | _ => rfl
  | orphan => rfl

theorem TokensHeld.step {s s' : Tasks Shared Task} (hs : TokensHeld s) (h : p.Step s e s') :
    TokensHeld s' :=
  Tasks.weight_eq (g := Shared.semaphore) h hs local_tokens

/-- After a step of a fetch, a call without a result is led by it, or was without a result
before and not led by it. -/
theorem fetch_leads {index : Int64} {f f' : Fetch} (h : p.FetchStep index sh f e sh' f' new)
    {c : Nat} (hc : c < sh'.nextCall) (hnone : (sh'.calls c).result = none) :
    f'.Leads c ∨ (c < sh.nextCall ∧ (sh.calls c).result = none ∧ ¬ f.Leads c) := by
  cases h with
  | lead _ =>
      by_cases hnew : c = sh.nextCall
      · exact .inl hnew.symm
      · simp only [Shared.newCall, Function.update_of_ne hnew] at hc hnone
        exact .inr ⟨by omega, hnone, not_false⟩
  | @finish c' r =>
      by_cases heq : c = c'
      · subst heq
        simp [Shared.finishCall] at hnone
      · simp only [Shared.finishCall, Function.update_of_ne heq] at hc hnone
        exact .inr ⟨hc, hnone, fun h => heq (Eq.symm h)⟩
  | join _ | woken _ => exact .inr ⟨hc, hnone, not_false⟩
  | @readFailed c' attempt a _ | @readExpired c' attempt result | @readCancelled c' attempt a _ =>
      by_cases heq : c' = c
      · refine .inl ?_
        unfold Prefetcher.afterAttempt
        split
        · exact heq
        · exact heq
      · exact .inr ⟨hc, hnone, heq⟩
  | @hit c' _ _ _ | @miss c' _ | @acquire c' _ | @acquireCancelled c' _ | @acquireExpired c'
  | @answer c' _ _ | @readOk c' _ _ _ | @retry c' _ | @retryCancelled c' _ _ | @add c' _ _ _
  | @release c' _ =>
      by_cases heq : c' = c
      · exact .inl heq
      · exact .inr ⟨hc, hnone, heq⟩

theorem local_leads {t t' : Task} (h : p.LocalStep sh t e sh' t' new) {c : Nat}
    (hc : c < sh'.nextCall) (hnone : (sh'.calls c).result = none) :
    t'.Leads c ∨ (c < sh.nextCall ∧ (sh.calls c).result = none ∧ ¬ t.Leads c) := by
  -- A step that is not one of a fetch leaves the calls alone and leads none of them.
  have hother : sh'.nextCall = sh.nextCall → sh'.calls = sh.calls →
      (∀ f, t.fetch? = some f → ∀ c, ¬ f.Leads c) →
      t'.Leads c ∨ (c < sh.nextCall ∧ (sh.calls c).result = none ∧ ¬ t.Leads c) := by
    intro hnext hcalls hf
    rw [hnext] at hc
    rw [hcalls] at hnone
    exact .inr ⟨hc, hnone, fun ⟨f, hsome, hleads⟩ => hf f hsome c hleads⟩
  have hfetch : ∀ {index : Int64} {f f' : Fetch}, t.fetch? = some f → t'.fetch? = some f' →
      p.FetchStep index sh f e sh' f' new →
      t'.Leads c ∨ (c < sh.nextCall ∧ (sh.calls c).result = none ∧ ¬ t.Leads c) := by
    intro index f f' ht ht' hstep
    rcases fetch_leads hstep hc hnone with hl | ⟨hlt, hres, hno⟩
    · exact .inl ⟨f', ht', hl⟩
    · refine .inr ⟨hlt, hres, fun ⟨g, hg, hleads⟩ => hno ?_⟩
      rw [ht] at hg
      cases hg
      exact hleads
  cases h with
  | readAt hr =>
      cases hr with
      | fetch hf => exact hfetch rfl rfl hf
      | fetched | fetchFailed =>
          refine hother rfl rfl fun f hf c => ?_
          cases hf
          exact not_false
      | _ => exact hother rfl rfl fun f hf => by cases hf
  | required hr =>
      cases hr with
      | fetch hf => exact hfetch rfl rfl hf
      | fetched =>
          refine hother rfl rfl fun f hf c => ?_
          cases hf
          exact not_false
      | _ => exact hother rfl rfl fun f hf => by cases hf
  | readAhead hr =>
      cases hr with
      | _ => exact hother rfl rfl fun f hf => by cases hf
  | close hc =>
      cases hc with
      | _ => exact hother rfl rfl fun f hf => by cases hf
  | orphan => exact hother rfl rfl fun f hf => by cases hf

theorem FlightsLed.step {s s' : Tasks Shared Task} (hs : FlightsLed s) (h : p.Step s e s') :
    FlightsLed s' := by
  intro c hc hnone
  cases h with
  | @mk before after sh sh' new t t' _ hlocal =>
      rcases local_leads hlocal hc hnone with hl | ⟨hlt, hres, hno⟩
      · exact ⟨t', by simp, hl⟩
      · obtain ⟨u, hu, hleads⟩ := hs c hlt hres
        simp only [List.mem_append, List.mem_cons] at hu
        rcases hu with hu | rfl | hu
        · exact ⟨u, by simp [hu], hleads⟩
        · exact (hno hleads).elim
        · exact ⟨u, by simp [hu], hleads⟩

end

/-! ## Who can move -/

/-- The fetch is held up, at the semaphore or behind another one. -/
def Fetch.Blocked (p : Prefetcher) (sh : Shared) : Fetch → Prop
  | .waiting c => (sh.calls c).result = none
  | .acquire _ => ¬ sh.semaphore < p.tokens
  | _ => False

def Task.Blocked (p : Prefetcher) (sh : Shared) (t : Task) : Prop :=
  ∃ f, t.fetch? = some f ∧ f.Blocked p sh

/-- The goroutine has ended, or will end without anybody noticing. -/
def Task.Ended : Task → Prop
  | .readAt _ (.returned _ _) | .required _ .returned | .readAhead _ .returned | .close _
  | .orphan _ _ => True
  | _ => False

/-- The goroutine can make a step over the reader of the source. -/
def CanMove (p : Prefetcher) (data : Bytes) (sh : Shared) (t : Task) : Prop :=
  ∃ e sh' t' new, (ReadsFrom p (FullReader data) e ∧ e ≠ .expire) ∧
    p.LocalStep sh t e sh' t' new

section

variable {p : Prefetcher} {data : Bytes} {sh : Shared}

theorem calm_tau (p : Prefetcher) (data : Bytes) :
    ReadsFrom p (FullReader data) .tau ∧ Event.tau ≠ .expire := ⟨trivial, by simp⟩

theorem calm_answer (p : Prefetcher) (data : Bytes) (index : Int64) :
    ReadsFrom p (FullReader data) (.answer index (sourceAnswer p data index)) ∧
      Event.answer index (sourceAnswer p data index) ≠ .expire := by
  refine ⟨⟨rfl, ?_⟩, by simp⟩
  unfold sourceAnswer
  dsimp only
  split
  · exact .inr rfl
  · exact .inl rfl

theorem hasChunk_cases (c : ChunkCache) (index : Int64) :
    c.hasChunk index = false ∨ ∃ ch, (c.getChunk index 0).1 = some ch := by
  unfold ChunkCache.hasChunk ChunkCache.getChunk
  cases c.chunkMap.lookup index with
  | none => exact .inl rfl
  | some ch => exact .inr ⟨_, rfl⟩

theorem fetch_moves (p : Prefetcher) (data : Bytes) (sh : Shared) (index : Int64) (f : Fetch) :
    (∃ r, f = .returned r) ∨ f.Blocked p sh ∨ ∃ e sh' f' new,
      (ReadsFrom p (FullReader data) e ∧ e ≠ .expire) ∧ p.FetchStep index sh f e sh' f' new := by
  have htau := calm_tau p data
  cases f with
  | start =>
      cases hfl : sh.flights index with
      | none => exact .inr (.inr ⟨_, _, _, _, htau, .lead hfl⟩)
      | some c => exact .inr (.inr ⟨_, _, _, _, htau, .join hfl⟩)
  | waiting c =>
      cases hres : (sh.calls c).result with
      | none => exact .inr (.inl hres)
      | some r => exact .inr (.inr ⟨_, _, _, _, htau, .woken hres⟩)
  | lookup c =>
      rcases hasChunk_cases sh.cache index with hmiss | ⟨ch, hhit⟩
      · exact .inr (.inr ⟨_, _, _, _, htau, .miss hmiss⟩)
      · exact .inr (.inr ⟨_, _, _, _, htau, .hit hhit⟩)
  | acquire c =>
      by_cases hfree : sh.semaphore < p.tokens
      · exact .inr (.inr ⟨_, _, _, _, htau, .acquire hfree⟩)
      · exact .inr (.inl hfree)
  | read c attempt result =>
      cases result with
      | none => exact .inr (.inr ⟨_, _, _, _, calm_answer p data index, .answer⟩)
      | some a =>
          cases hok : a.ok with
          | true => exact .inr (.inr ⟨_, _, _, _, htau, .readOk hok⟩)
          | false => exact .inr (.inr ⟨_, _, _, _, htau, .readFailed hok⟩)
  | retry c attempt => exact .inr (.inr ⟨_, _, _, _, htau, .retry⟩)
  | add c ch => exact .inr (.inr ⟨_, _, _, _, htau, .add .stored 0⟩)
  | release c r => exact .inr (.inr ⟨_, _, _, _, htau, .release⟩)
  | finish c r => exact .inr (.inr ⟨_, _, _, _, htau, .finish⟩)
  | returned r => exact .inl ⟨r, rfl⟩

theorem read_moves (p : Prefetcher) (data : Bytes) (sh : Shared) (rd : Read) (r : Reading) :
    (Task.readAt rd r).Ended ∨ (Task.readAt rd r).Blocked p sh ∨
      CanMove p data sh (.readAt rd r) := by
  have htau := calm_tau p data
  have hmove : ∀ {e sh' r' new}, (ReadsFrom p (FullReader data) e ∧ e ≠ .expire) →
      p.ReadStep rd sh r e sh' r' new →
      (Task.readAt rd r).Ended ∨ (Task.readAt rd r).Blocked p sh ∨
        CanMove p data sh (.readAt rd r) :=
    fun he h => .inr (.inr ⟨_, _, _, _, he, .readAt h⟩)
  cases r with
  | begin =>
      cases hclosed : sh.closed with
      | true => exact hmove htau (.refused hclosed)
      | false => exact hmove htau (.begin hclosed)
  | evict => exact hmove htau .evict
  | required index =>
      by_cases hi : index ≤ p.endChunk rd
      · cases hhas : sh.cache.hasChunk index with
        | true => exact hmove htau (.requiredHit hi hhas)
        | false => exact hmove htau (.requiredMiss hi hhas)
      · exact hmove htau (.requiredEnd hi)
  | register index =>
      cases hclosed : sh.closed with
      | true => exact hmove htau (.registerClosed hclosed)
      | false => exact hmove htau (.register hclosed)
  | ahead index scheduled =>
      by_cases hi : index ≤ p.windowEndChunk (p.startChunk rd) ∧ scheduled < p.readAheadLimit
      · cases hhas : sh.cache.hasChunk index with
        | true => exact hmove htau (.aheadHit hi.1 hi.2 hhas)
        | false => exact hmove htau (.aheadMiss hi.1 hi.2 hhas)
      · exact hmove htau (.aheadEnd hi)
  | registerAhead index scheduled =>
      cases hclosed : sh.closed with
      | true => exact hmove htau (.registerAheadClosed hclosed)
      | false => exact hmove htau (.registerAhead hclosed)
  | copy index got =>
      by_cases hi : index ≤ p.endChunk rd ∧ got.length < rd.len
      · rcases hasChunk_cases sh.cache index with hmiss | ⟨ch, hhit⟩
        · exact hmove htau (.copyMiss hi.1 hi.2 hmiss)
        · exact hmove htau (.copyHit hi.1 hi.2 hhit)
      · exact hmove htau (.copyEnd hi)
  | fetch index got f =>
      rcases fetch_moves p data sh index f with ⟨r, rfl⟩ | hblocked | ⟨e, sh', f', new, he, hf⟩
      · cases r with
        | ok ch => exact hmove htau .fetched
        | error e => exact hmove htau .fetchFailed
      · exact .inr (.inl ⟨f, rfl, hblocked⟩)
      · exact hmove he (.fetch hf)
  | done got err => exact hmove htau .done
  | returned got err => exact .inl trivial

/-- A goroutine has ended, is held up or can move. -/
theorem local_moves (p : Prefetcher) (data : Bytes) (sh : Shared) (t : Task) :
    t.Ended ∨ t.Blocked p sh ∨ CanMove p data sh t := by
  have htau := calm_tau p data
  cases t with
  | readAt rd r => exact read_moves p data sh rd r
  | required index r =>
      cases r with
      | start =>
          cases hclosed : sh.closed with
          | true => exact .inr (.inr ⟨_, _, _, _, htau, .required (.closed hclosed)⟩)
          | false => exact .inr (.inr ⟨_, _, _, _, htau, .required (.start hclosed)⟩)
      | look =>
          cases hhas : sh.cache.hasChunk index with
          | true => exact .inr (.inr ⟨_, _, _, _, htau, .required (.hit hhas)⟩)
          | false => exact .inr (.inr ⟨_, _, _, _, htau, .required (.miss hhas)⟩)
      | fetch f =>
          rcases fetch_moves p data sh index f with ⟨r, rfl⟩ | hblocked | ⟨e, sh', f', new, he, hf⟩
          · exact .inr (.inr ⟨_, _, _, _, htau, .required .fetched⟩)
          · exact .inr (.inl ⟨f, rfl, hblocked⟩)
          · exact .inr (.inr ⟨_, _, _, _, he, .required (.fetch hf)⟩)
      | done => exact .inr (.inr ⟨_, _, _, _, htau, .required .done⟩)
      | returned => exact .inl trivial
  | readAhead index r =>
      cases r with
      | start =>
          cases hclosed : sh.closed with
          | true => exact .inr (.inr ⟨_, _, _, _, htau, .readAhead (.closed hclosed)⟩)
          | false => exact .inr (.inr ⟨_, _, _, _, htau, .readAhead (.start hclosed)⟩)
      | look =>
          cases hhas : sh.cache.hasChunk index with
          | true => exact .inr (.inr ⟨_, _, _, _, htau, .readAhead (.hit hhas)⟩)
          | false => exact .inr (.inr ⟨_, _, _, _, htau, .readAhead (.miss hhas)⟩)
      | acquire =>
          by_cases hfree : sh.semaphore < p.tokens
          · exact .inr (.inr ⟨_, _, _, _, htau, .readAhead (.acquire hfree)⟩)
          · exact .inr (.inr ⟨_, _, _, _, htau, .readAhead (.busy hfree)⟩)
      | read =>
          exact .inr (.inr ⟨_, _, _, _, calm_answer p data index,
            .readAhead (.readOk (sourceAnswer_ok index))⟩)
      | add ch => exact .inr (.inr ⟨_, _, _, _, htau, .readAhead (.add .stored 0)⟩)
      | release => exact .inr (.inr ⟨_, _, _, _, htau, .readAhead .release⟩)
      | done => exact .inr (.inr ⟨_, _, _, _, htau, .readAhead .done⟩)
      | returned => exact .inl trivial
  | close c => exact .inl trivial
  | orphan index ended => exact .inl trivial

variable {t : Task}

/-- A fetch is not the end of a goroutine, and its tokens are those of the goroutine. -/
theorem fetch?_eq_some {f : Fetch} (h : t.fetch? = some f) :
    ¬ t.Ended ∧ t.tokens = f.tokens := by
  cases t with
  | readAt rd r =>
      cases r with
      | fetch index got g =>
          cases h
          exact ⟨not_false, rfl⟩
      | _ => cases h
  | required index r =>
      cases r with
      | fetch g =>
          cases h
          exact ⟨not_false, rfl⟩
      | _ => cases h
  | _ => cases h

theorem tokens_of_ended (h : t.Ended) : t.tokens = 0 := by
  cases t with
  | readAt rd r =>
      cases r with
      | returned got err => rfl
      | _ => exact h.elim
  | required index r =>
      cases r with
      | returned => rfl
      | _ => exact h.elim
  | readAhead index r =>
      cases r with
      | returned => rfl
      | _ => exact h.elim
  | _ => rfl

/-- Whoever has a token can move. -/
theorem canMove_of_tokens (h : 0 < t.tokens) : CanMove p data sh t := by
  rcases local_moves p data sh t with hended | ⟨f, hf, hblocked⟩ | hmove
  · rw [tokens_of_ended hended] at h
    exact absurd h (Nat.lt_irrefl 0)
  · rw [(fetch?_eq_some hf).2] at h
    cases f with
    | waiting c | acquire c => exact absurd h (Nat.lt_irrefl 0)
    | _ => exact hblocked.elim
  · exact hmove

/-- If somebody is held up, somebody can move. -/
theorem exists_canMove (p : Prefetcher) (data : Bytes) {s : Tasks Shared Task}
    (htokens : TokensHeld s) (hled : FlightsLed s)
    (hcalls : ∀ t ∈ s.tasks, ∀ c, t.fetch? = some (.waiting c) → c < s.shared.nextCall)
    (ht : t ∈ s.tasks) (hended : ¬ t.Ended) :
    ∃ u ∈ s.tasks, (u = t ∨ u.fetch? ≠ none ∨ 0 < u.tokens) ∧ CanMove p data s.shared u := by
  have hfull : ¬ s.shared.semaphore < p.tokens →
      ∃ u ∈ s.tasks, 0 < u.tokens ∧ CanMove p data s.shared u := by
    intro hsem
    have hpos : 0 < s.weight Task.tokens := by
      rw [← htokens]
      have := tokens_pos p
      omega
    obtain ⟨u, hu, hpos⟩ := Tasks.exists_pos hpos
    exact ⟨u, hu, hpos, canMove_of_tokens hpos⟩
  rcases local_moves p data s.shared t with h | ⟨f, hf, hblocked⟩ | hmove
  · exact (hended h).elim
  · cases f with
    | waiting c =>
        -- Its leader moves, unless it is held up at the semaphore.
        obtain ⟨u, hu, g, hg, hleads⟩ := hled c (hcalls t ht c hf) hblocked
        rcases local_moves p data s.shared u with h | ⟨g', hg', hblocked'⟩ | hmove
        · exact ((fetch?_eq_some hg).1 h).elim
        · rw [hg] at hg'
          cases hg'
          cases g with
          | acquire c' =>
              obtain ⟨u, hu, hpos, hmove⟩ := hfull hblocked'
              exact ⟨u, hu, .inr (.inr hpos), hmove⟩
          | waiting c' => exact hleads.elim
          | _ => exact hblocked'.elim
        · exact ⟨u, hu, .inr (.inl (by simp [hg])), hmove⟩
    | acquire c =>
        obtain ⟨u, hu, hpos, hmove⟩ := hfull hblocked
        exact ⟨u, hu, .inr (.inr hpos), hmove⟩
    | _ => exact hblocked.elim
  · exact ⟨t, ht, .inl rfl, hmove⟩

end

/-! ## The work that is left -/

def Fetch.work : Fetch → Nat
  | .start => 10
  | .waiting _ | .lookup _ => 9
  | .acquire _ => 8
  | .read _ _ none => 7
  | .read _ _ (some _) => 6
  | .add _ _ => 5
  | .release _ _ => 4
  | .finish _ _ => 3
  | .returned _ => 2
  | .retry _ _ => 0

def Required.work : Required → Nat
  | .start => 14
  | .look => 13
  | .fetch f => f.work + 2
  | .done => 1
  | .returned => 0

def ReadAhead.work : ReadAhead → Nat
  | .start => 8
  | .look => 7
  | .acquire => 6
  | .read => 5
  | .add _ => 4
  | .release => 3
  | .done => 1
  | .returned => 0

/-- The rounds of a loop from `index` up to `last`. -/
def rounds (last index : Int64) : Nat := (last.toInt + 1 - index.toInt).toNat

namespace Prefetcher

variable (p : Prefetcher) (rd : Read)

/-- `copyChunks` from `index` on -/
def copyWork (index : Int64) : Nat := 16 * rounds (p.endChunk rd) index + 2

/-- `scheduleReadAhead` from `index` on, and what comes after it -/
def aheadWork (index : Int64) : Nat :=
  10 * rounds (p.windowEndChunk (p.startChunk rd)) index + p.copyWork rd (p.startChunk rd) + 1

/-- `scheduleRequiredChunks` from `index` on, and what comes after it -/
def requiredWork (index : Int64) : Nat :=
  16 * rounds (p.endChunk rd) index + p.aheadWork rd (p.endChunk rd + 1) + 1

end Prefetcher

/-- Within a round, `index + 1` stands for the rounds that follow. -/
def Reading.work (p : Prefetcher) (rd : Read) : Reading → Nat
  | .begin => p.requiredWork rd (p.startChunk rd) + 3
  | .evict => p.requiredWork rd (p.startChunk rd) + 2
  | .required index => p.requiredWork rd index
  | .register index => p.requiredWork rd (index + 1) + 15
  | .ahead index _ => p.aheadWork rd index
  | .registerAhead index _ => p.aheadWork rd (index + 1) + 9
  | .copy index _ => p.copyWork rd index
  | .fetch index _ f => p.copyWork rd (index + 1) + f.work + 1
  | .done _ _ => 1
  | .returned _ _ => 0

def Task.work (p : Prefetcher) : Task → Nat
  | .readAt rd r => r.work p rd
  | .required _ r => r.work
  | .readAhead _ r => r.work
  | .orphan _ ended => if ended then 0 else 1
  | .close _ => 0

/-- The goroutine is not a call that goes on for ever. -/
def Terminates (p : Prefetcher) : Task → Prop
  | .readAt rd _ => ¬ Stalls p rd
  | _ => True

section

variable {p : Prefetcher} {data : Bytes} {sh sh' : Shared} {e : Event} {new : List Task}

variable {index : Int64} {rd : Read}

theorem rounds_succ {last : Int64} (hi : index ≤ last) (hmax : last < Int64.maxValue) :
    rounds last index = rounds last (index + 1) + 1 := by
  have hsucc := toInt_succ hi hmax
  have hle := Int64.le_iff_toInt_le.mp hi
  unfold rounds
  omega

theorem fetch_work {f f' : Fetch} (hsh : SharedOk (Exact p data) False sh)
    (hf : FetchOk (Exact p data) False sh index f) (he : Admissible (Exact p data) False e)
    (h : p.FetchStep index sh f e sh' f' new) : f'.work < f.work ∧ new = [] := by
  cases h with
  | acquireExpired | readExpired => exact he.elim
  | acquireCancelled hclosed | readCancelled hclosed => exact (hsh.closed hclosed).elim
  | readFailed hbad => exact (hf.2.2 hbad).elim
  | retry | retryCancelled _ => exact hf.2.elim
  | _ => exact ⟨by simp [Fetch.work], rfl⟩

theorem clamp_lt {value limit bound : Int64} (h : limit < bound) :
    (if value > limit then limit else value) < bound := by
  split
  · exact h
  · rename_i hle
    exact Int64.lt_of_le_of_lt (Int64.not_lt.mp hle) h

/-- The window ends below the largest index there is. -/
theorem windowEndChunk_lt (hsize : 0 < p.size) (index : Int64) :
    p.windowEndChunk index < Int64.maxValue := by
  have hpos := chunk_pos p
  have hsize' : 0 < p.size.toInt := pos_iff_toInt.mp hsize
  have hlast : (p.size - 1) / p.config.chunkSize < Int64.maxValue := by
    have hlt := Int64.toInt_lt p.size
    have hsub : (p.size - 1).toInt = (p.size.toInt.toNat - 1 : Nat) := by
      rw [Int64.toInt_sub, one_toInt, bmod_small (by omega) (by omega)]
      omega
    have hdiv := Nat.div_le_self (p.size.toInt.toNat - 1) p.chunk
    rw [Int64.lt_iff_toInt_lt, maxValue_toInt, Int64.toInt_div, hsub, chunk_toInt, tdiv_nat,
      bmod_nat (by omega)]
    omega
  unfold Prefetcher.windowEndChunk
  dsimp only
  rw [if_pos hsize]
  exact clamp_lt hlast

theorem admitted_size (hsize : 0 ≤ p.size.toInt) (h : Admitted p rd) : 0 < p.size := by
  have hzero : p.size ≠ 0 := by
    intro hz
    have hv := h.1
    unfold Prefetcher.validateRead at hv
    rw [if_neg h.2] at hv
    split at hv
    · cases hv
    · rw [if_pos ⟨hz, Nat.pos_of_ne_zero h.2⟩] at hv
      cases hv
  rw [Int64.lt_iff_toInt_lt, Int64.toInt_zero]
  have hne : p.size.toInt ≠ 0 := fun h => hzero (Int64.toInt_inj.mp h)
  omega

theorem copyFrom_work {got data : Bytes} {n : Nat} (h : p.copyWork rd (index + 1) < n) :
    (p.copyFrom rd index got data).work p rd < n := by
  have hpos : 1 < p.copyWork rd (index + 1) := by
    unfold Prefetcher.copyWork
    omega
  unfold Prefetcher.copyFrom
  split
  · exact Nat.lt_trans hpos h
  · exact h

theorem enter_work (rd : Read) : (p.enter rd).work p rd < Reading.begin.work p rd := by
  unfold Prefetcher.enter
  cases p.validateRead rd with
  | some e =>
      simp only [Reading.work]
      omega
  | none =>
      by_cases hlen : rd.len = 0
      · simp only [if_pos hlen, Reading.work]
        omega
      · simp only [if_neg hlen, Reading.work]
        omega

/-- A step of a call that does not go on for ever leaves less to do, counting what the
goroutines it starts have to do. -/
theorem read_work {r r' : Reading} (hsize : 0 ≤ p.size.toInt) (hstall : ¬ Stalls p rd)
    (hsh : SharedOk (Exact p data) False sh) (hr : ReadingOk (Exact p data) False p sh rd r)
    (he : Admissible (Exact p data) False e) (h : p.ReadStep rd sh r e sh' r' new) :
    r'.work p rd + (new.map (Task.work p)).sum < r.work p rd := by
  have hmax : Admitted p rd → p.endsInChunk rd = false → p.endChunk rd < Int64.maxValue := by
    intro hadm hends
    refine Int64.lt_of_le_of_ne (Int64.le_maxValue _) fun heq => ?_
    exact hstall ⟨hadm.1, hadm.2, hends, heq⟩
  have hahead : Admitted p rd → ∀ index, index ≤ p.windowEndChunk (p.startChunk rd) →
      p.aheadWork rd index = p.aheadWork rd (index + 1) + 10 := by
    intro hadm index hi
    have := rounds_succ hi (windowEndChunk_lt (admitted_size hsize hadm) _)
    unfold Prefetcher.aheadWork
    omega
  cases h with
  | refused hclosed | registerClosed hclosed | registerAheadClosed hclosed =>
      exact (hsh.closed hclosed).elim
  | begin _ =>
      simp only [List.map_nil, List.sum_nil, Nat.add_zero]
      exact enter_work rd
  | evict =>
      simp only [List.map_nil, List.sum_nil]
      split
      · simp only [Reading.work]
        omega
      · simp only [Reading.work]
        omega
  | @requiredHit index hi _ | @requiredMiss index hi _ =>
      have := rounds_succ hi (hmax hr.1 hr.2)
      simp only [List.map_nil, List.sum_nil, Reading.work, Prefetcher.requiredWork]
      omega
  | requiredEnd _ =>
      simp only [List.map_nil, List.sum_nil, Reading.work, Prefetcher.requiredWork]
      omega
  | register _ | registerAhead _ =>
      simp only [List.map_cons, List.map_nil, List.sum_cons, List.sum_nil, Reading.work, Task.work,
        Required.work, ReadAhead.work]
      omega
  | @aheadHit index scheduled hi _ _ | @aheadMiss index scheduled hi _ _ =>
      have := hahead ⟨hr.proceeds.valid, hr.proceeds.len⟩ index hi
      simp only [List.map_nil, List.sum_nil, Reading.work]
      omega
  | aheadEnd _ =>
      simp only [List.map_nil, List.sum_nil, Reading.work, Prefetcher.aheadWork]
      omega
  | @copyHit index got now ch hi hlen hch =>
      have := rounds_succ hi hr.proceeds.max
      simp only [List.map_nil, List.sum_nil, Nat.add_zero]
      refine copyFrom_work ?_
      simp only [Reading.work, Prefetcher.copyWork]
      omega
  | @copyMiss index got hi hlen _ =>
      have := rounds_succ hi hr.proceeds.max
      simp only [List.map_nil, List.sum_nil, Reading.work, Prefetcher.copyWork, Fetch.work]
      omega
  | copyEnd _ =>
      simp only [List.map_nil, List.sum_nil, Reading.work, Prefetcher.copyWork]
      omega
  | fetch hf =>
      obtain ⟨hlt, rfl⟩ := fetch_work hsh hr.2.2 he hf
      simp only [List.map_nil, List.sum_nil, Reading.work]
      omega
  | fetched =>
      simp only [List.map_nil, List.sum_nil, Nat.add_zero]
      refine copyFrom_work ?_
      simp only [Reading.work, Fetch.work]
      omega
  | fetchFailed => exact hr.2.2.elim
  | done => simp [Reading.work]

theorem local_work {t t' : Task} (hsize : 0 ≤ p.size.toInt) (hterm : Terminates p t)
    (hsh : SharedOk (Exact p data) False sh) (ht : TaskOk (Exact p data) False p sh t)
    (he : Admissible (Exact p data) False e) (h : p.LocalStep sh t e sh' t' new) :
    t'.work p + (new.map (Task.work p)).sum < t.work p := by
  cases h with
  | readAt hr => exact read_work hsize hterm hsh ht he hr
  | required hr =>
      cases hr with
      | fetch hf =>
          obtain ⟨hlt, rfl⟩ := fetch_work hsh ht he hf
          simp only [List.map_nil, List.sum_nil, Task.work, Required.work]
          omega
      | _ => simp [Task.work, Required.work, Fetch.work]
  | readAhead hr =>
      cases hr with
      | _ => simp [Task.work, ReadAhead.work]
  | close _ => exact ht.elim
  | orphan => exact Nat.zero_lt_one

end

/-! ## Reads within the source -/

/-- The read asks for some bytes, all of which the source has. -/
structure InRange (data : Bytes) (rd : Read) : Prop where
  off : 0 ≤ rd.off.toInt
  len : 0 < rd.len
  le : rd.off.toInt + rd.len ≤ data.length

/-- Its bytes, and the end of the file if it comes to it. -/
def Task.exact (data : Bytes) (rd : Read) : Task :=
  .readAt rd (.returned (slice data rd.start rd.len)
    (if rd.start + rd.len = data.length then some .eof else none))

/-- The arguments of a call. -/
def Task.read? : Task → Option Read
  | .readAt rd _ => some rd
  | _ => none

section

variable {p : Prefetcher} {data : Bytes} {reads : List Read}

/-- What holds in every state of a run. -/
structure Running (p : Prefetcher) (data : Bytes) (reads : List Read) (s : Tasks Shared Task) :
    Prop where
  ok : s.All (SharedOk (Exact p data) False) (TaskOk (Exact p data) False p)
  tokens : TokensHeld s
  led : FlightsLed s
  calls : reads.map some <+: s.tasks.map Task.read?

theorem Running.start : Running p data reads (start (reads.map Call.readAt)) where
  ok := start_ok fun h => not_close_mem reads h
  tokens := by
    unfold TokensHeld Tasks.weight
    refine (List.sum_eq_zero fun n hn => ?_).symm
    simp only [Prefetch.start, List.map_map, List.mem_map] at hn
    obtain ⟨rd, _, rfl⟩ := hn
    rfl
  led := fun c hc => absurd hc (Nat.not_lt_zero c)
  calls := by
    simp only [Prefetch.start, List.map_map]
    exact List.prefix_rfl

theorem local_read? {sh sh' : Shared} {t t' : Task} {e : Event} {new : List Task}
    (h : p.LocalStep sh t e sh' t' new) : t'.read? = t.read? := by
  cases h with
  | _ => rfl

variable {s : Tasks Shared Task} {rd : Read}

theorem Running.step {s' : Tasks Shared Task} {e : Event} (h : Running p data reads s)
    (he : Calm p (FullReader data) s e) (hstep : p.Step s e s') : Running p data reads s' where
  ok := all_ok (fun _ _ => calm_admissible) h.ok (Reach.single he hstep)
  tokens := h.tokens.step hstep
  led := h.led.step hstep
  calls := h.calls.trans (hstep.map_grows local_read?)

theorem Running.call (h : Running p data reads s) {i : Nat} (hi : reads[i]? = some rd) :
    ∃ r, s.tasks[i]? = some (.readAt rd r) := by
  have hmap : (s.tasks.map Task.read?)[i]? = some (some rd) := by
    obtain ⟨rest, hrest⟩ := h.calls
    have hlt : i < reads.length := (List.getElem?_eq_some_iff.mp hi).1
    rw [← hrest, List.getElem?_append_left (by rwa [List.length_map]), List.getElem?_map, hi]
    rfl
  rw [List.getElem?_map, Option.map_eq_some_iff] at hmap
  obtain ⟨t, ht, hread⟩ := hmap
  cases t with
  | readAt rd' r =>
      cases hread
      exact ⟨r, ht⟩
  | _ => cases hread

/-- What a call within the source returns. -/
theorem Running.exact (h : Running p data reads s) (hsize : p.size.toInt = data.length)
    (hin : InRange data rd) {got : Bytes} {err : Option Err}
    (hmem : Task.readAt rd (.returned got err) ∈ s.tasks) :
    Task.readAt rd (.returned got err) = Task.exact data rd := by
  have hout : Outcome p (Exact p data) False rd got err := h.ok.task _ hmem
  have hoff : rd.off.toInt = rd.start := (Int.toNat_of_nonneg hin.off).symm
  have hle := hin.le
  have hres := hout.exact.1
  rw [result_inside hsize hoff hin.len (by omega)] at hres
  cases hres
  rfl

theorem Running.terminates (h : Running p data reads s) {t : Task} (ht : t ∈ s.tasks)
    (hf : t.fetch? ≠ none ∨ 0 < t.tokens) : Terminates p t := by
  have hok := h.ok.task t ht
  cases t with
  | readAt rd r =>
      cases r with
      | fetch index got f => exact hok.1.proceeds.not_stalls
      | _ =>
          rcases hf with hf | hf
          · exact (hf rfl).elim
          · exact absurd hf (Nat.lt_irrefl 0)
  | _ => trivial

/-- As long as a call within the source has not returned, a goroutine can move. -/
theorem Running.moves (h : Running p data reads s) (hsize : p.size.toInt = data.length) {i : Nat}
    (hi : reads[i]? = some rd) (hin : InRange data rd)
    (hnot : s.tasks[i]? ≠ some (Task.exact data rd)) :
    ∃ s', Moves (TaskStep (LocalStep.only p.LocalStep (Terminates p)))
      (Calm p (FullReader data)) s s' := by
  obtain ⟨r, hr⟩ := h.call hi
  have hmem : Task.readAt rd r ∈ s.tasks := List.mem_of_getElem? hr
  have hended : ¬ (Task.readAt rd r).Ended := by
    intro hended
    cases r with
    | returned got err =>
        rw [h.exact hsize hin hmem] at hr
        exact hnot hr
    | _ => exact hended
  have hterm : Terminates p (.readAt rd r) := by
    have hle := hin.le
    have hoff : rd.off.toInt = rd.start := (Int.toNat_of_nonneg hin.off).symm
    have hlt := length_lt hsize
    exact not_stalls hoff hin.len p (by omega)
  have hcalls : ∀ t ∈ s.tasks, ∀ c, t.fetch? = some (.waiting c) → c < s.shared.nextCall := by
    intro t ht c hf
    have hok := h.ok.task t ht
    cases t with
    | readAt rd r =>
        cases r with
        | fetch index got f =>
            cases hf
            exact hok.2.2.1
        | _ => cases hf
    | required index r =>
        cases r with
        | fetch f =>
            cases hf
            exact hok.1
        | _ => cases hf
    | _ => cases hf
  obtain ⟨u, hu, hkind, e, sh', u', new, hcalm, hlocal⟩ :=
    exists_canMove p data h.tokens h.led hcalls hmem hended
  have hu' : Terminates p u := by
    rcases hkind with rfl | hfetch
    · exact hterm
    · exact h.terminates hu hfetch
  have honly : LocalStep.only p.LocalStep (Terminates p) s.shared u e sh' u' new :=
    ⟨hu', hlocal⟩
  obtain ⟨s', hs'⟩ := TaskStep.of_mem hu honly
  exact ⟨s', e, hcalm, hs'⟩

end

/-- For every history of calls, in every state of a run over a reader that reads in full: a
call within the source that has returned has its bytes, and all that have not do return,
whatever the goroutines go on to do.  (A call whose last chunk is the largest index there is
never stops scheduling; it is the others that must be given time.) -/
theorem readAt_in_range (data : Bytes) (size : Int64) (configs : List Config) (reads : List Read)
    (s : Tasks Shared Task) (hsize : size.toInt = data.length)
    (hrun : Reach (Prefetcher.new size configs).Step
      (Calm (.new size configs) (FullReader data)) (start (reads.map Call.readAt)) s) :
    (∀ rd got err, InRange data rd → Task.readAt rd (.returned got err) ∈ s.tasks →
      Task.readAt rd (.returned got err) = Task.exact data rd) ∧
    Inevitable
      (Moves
        (TaskStep (LocalStep.only (Prefetcher.new size configs).LocalStep
          (Terminates (.new size configs))))
        (Calm (.new size configs) (FullReader data)))
      (fun s' => ∀ (i : Nat) rd, reads[i]? = some rd → InRange data rd →
        s'.tasks[i]? = some (Task.exact data rd)) s := by
  have hsize' : (Prefetcher.new size configs).size.toInt = data.length := hsize
  have hs : Running (.new size configs) data reads s :=
    hrun.invariant .start fun _ _ _ h he hstep => h.step he hstep
  refine ⟨fun rd got err hin hmem => hs.exact hsize' hin hmem, ?_⟩
  refine Inevitable.of_rank (Tasks.weight (Task.work (.new size configs)))
    (fun t t' ht ⟨e, he, hstep⟩ => ht.step he hstep.of_only) ?_ ?_ hs
  · intro t t' ht ⟨e, he, hstep⟩
    refine Tasks.weight_lt hstep fun hmem hlocal => ?_
    exact local_work (by omega) hlocal.1 ht.ok.shared (ht.ok.task _ hmem) (calm_admissible he)
      hlocal.2
  · intro t ht hnot
    simp only [not_forall] at hnot
    obtain ⟨i, rd, hi, hin, hne⟩ := hnot
    exact ht.moves hsize' hi hin hne

/-- A call on eight bytes, to their end. -/
theorem readAt_in_range_eight :
    Inevitable
      (Moves
        (TaskStep (LocalStep.only (Prefetcher.new 8 [configOf 4]).LocalStep
          (Terminates (.new 8 [configOf 4]))))
        (Calm (.new 8 [configOf 4]) (FullReader [0, 1, 2, 3, 4, 5, 6, 7])))
      (fun s => s.tasks[0]? = some (.readAt readSix (.returned [2, 3, 4, 5, 6, 7] (some .eof))))
      (start [.readAt readSix]) := by
  have h := (readAt_in_range [0, 1, 2, 3, 4, 5, 6, 7] 8 [configOf 4] [readSix] _ (by decide)
    (.refl _)).2
  exact h.mono fun s hs => hs 0 readSix rfl ⟨by decide, by decide, by decide⟩

end BuilderShim.Prefetch
