/-
  Prefetch/Range.lean --- the chunks one `ReadAt` call has read.

  A call reads some chunks itself and starts goroutines for others.  `CallRun` is
  the run of one call while the rest of the system does what it likes to the shared
  state between two of its steps, so that what is true of every `CallRun` is true
  of the call among any others, and whatever the cache holds.

  The chunks are those from the first to the last required one, and after them those
  up to the end of the window; the three loops take these bounds from sums that may
  wrap around and of which only one is cut off at the end of the file.
-/
import BuilderShim.Prefetch.ReadAt

set_option autoImplicit false

namespace BuilderShim.Prefetch

open BuilderShim.Foundation

/-! ## The run of one call -/

/-- The call of `rd` gets to this point and has started these goroutines. -/
inductive CallRun (p : Prefetcher) (rd : Read) : Reading → List Task → Prop
  | begin : CallRun p rd .begin []
  | step {sh sh' : Shared} {r r' : Reading} {e : Event} {started new : List Task}
      (h : CallRun p rd r started) (hstep : p.ReadStep rd sh r e sh' r' new) :
      CallRun p rd r' (started ++ new)

/-- The chunk that a goroutine reads. -/
def Task.chunk : Task → Option Int64
  | .required index _ | .readAhead index _ | .orphan index _ => some index
  | .readAt _ _ | .close _ => none

def Task.isReadAhead : Task → Bool
  | .readAhead _ _ => true
  | _ => false

/-- How many of the goroutines read ahead. -/
def aheads (tasks : List Task) : Nat := tasks.countP Task.isReadAhead

/-- The call reads the chunk, or a goroutine it starts does. -/
inductive Causes (p : Prefetcher) (rd : Read) (index : Int64) : Prop
  | task {r : Reading} {started : List Task} {t : Task} (h : CallRun p rd r started)
      (ht : t ∈ started) (hchunk : t.chunk = some index)
  | direct {got : Bytes} {f : Fetch} {started : List Task}
      (h : CallRun p rd (.fetch index got f) started)

/-- The read is one for which chunks are scheduled. -/
def Schedules (p : Prefetcher) (rd : Read) : Prop := Admitted p rd ∧ p.endsInChunk rd = false

section

variable {p : Prefetcher} {rd : Read}

variable {e : Event} {index low : Int64} {new : List Task} {r : Reading} {sh sh' : Shared}
  {calls : List Call} {n : Nat}

theorem Causes.of_step {r' : Reading} {started : List Task} {t : Task} (h : CallRun p rd r started)
    (hstep : p.ReadStep rd sh r e sh' r' new) (ht : t ∈ new) (hchunk : t.chunk = some index) :
    Causes p rd index :=
  .task (h.step hstep) (List.mem_append_right _ ht) hchunk

/-- The only goroutine a fetch leaves behind is the one that reads. -/
theorem fetchStep_new {f f' : Fetch} (h : p.FetchStep index sh f e sh' f' new) :
    ∀ t ∈ new, t = .orphan index false := by
  have horphan : ∀ result, ∀ t ∈ Prefetcher.orphans index result, t = .orphan index false := by
    intro result t ht
    cases result with
    | none => exact List.mem_singleton.mp ht
    | some a => exact absurd ht List.not_mem_nil
  cases h with
  | readExpired => exact horphan _
  | readCancelled _ => exact horphan _
  | lead _ | join _ | woken _ | hit _ | miss _ | acquire _ | acquireCancelled _ | acquireExpired
  | answer | readOk _ | readFailed _ | retry | retryCancelled _ | add _ _ | release | finish =>
      exact fun t ht => absurd ht List.not_mem_nil

/-! ### Among other calls -/

/-- A goroutine of the prefetcher is one of the calls, or some call has caused it. -/
def CausedBy (calls : List Call) (p : Prefetcher) (_ : Shared) : Task → Prop
  | .readAt rd r => Call.readAt rd ∈ calls ∧ ∃ started, CallRun p rd r started
  | .required index _ | .readAhead index _ | .orphan index _ =>
      ∃ rd, Call.readAt rd ∈ calls ∧ Causes p rd index
  | .close _ => True

theorem causedBy_new {t t' : Task} (ht : CausedBy calls p sh t)
    (h : p.LocalStep sh t e sh' t' new) :
    CausedBy calls p sh' t' ∧ ∀ u ∈ new, CausedBy calls p sh' u := by
  cases h with
  | @readAt _ _ rd r r' _ _ hr =>
      obtain ⟨hmem, started, hrun⟩ := ht
      refine ⟨⟨hmem, _, hrun.step hr⟩, fun u hu => ?_⟩
      have hcauses : ∀ index, u.chunk = some index → ∃ rd, Call.readAt rd ∈ calls ∧
          Causes p rd index :=
        fun index hchunk => ⟨rd, hmem, .of_step hrun hr hu hchunk⟩
      cases u with
      | required index r => exact hcauses index rfl
      | readAhead index r => exact hcauses index rfl
      | orphan index ended => exact hcauses index rfl
      | close c => trivial
      | readAt rd' r' =>
          -- a call starts no calls
          cases hr with
          | fetch hf => cases fetchStep_new hf _ hu
          | _ => simp at hu
  | required hr =>
      refine ⟨ht, fun u hu => ?_⟩
      cases hr with
      | fetch hf =>
          rw [fetchStep_new hf u hu]
          exact ht
      | start _ | closed _ | hit _ | miss _ | fetched | done => exact absurd hu List.not_mem_nil
  | readAhead hr => exact ⟨ht, fun u hu => absurd hu List.not_mem_nil⟩
  | close hc => exact ⟨trivial, fun u hu => absurd hu List.not_mem_nil⟩
  | orphan => exact ⟨ht, fun u hu => absurd hu List.not_mem_nil⟩

theorem causedBy_of_reach {C : Tasks Shared Task → Event → Prop} {s : Tasks Shared Task}
    (hrun : Reach p.Step C (start calls) s) :
    s.All (fun _ => True) (CausedBy calls p) := by
  refine hrun.invariant ⟨trivial, ?_⟩ fun s e t hall _ hstep => hall.step hstep ?_ ?_
  · intro t ht
    obtain ⟨call, hcall, rfl⟩ := List.mem_map.mp ht
    cases call with
    | readAt rd => exact ⟨hcall, [], .begin⟩
    | close => trivial
  · intro sh t sh' t' new _ ht hlocal
    exact ⟨trivial, causedBy_new ht hlocal⟩
  · intro sh t sh' t' new u _ _ _ hu
    exact hu

/-- Whatever calls run at once, a chunk is read only because one of them causes it. -/
theorem causes_of_answer {C : Tasks Shared Task → Event → Prop} {s s' : Tasks Shared Task}
    (hrun : Reach p.Step C (start calls) s) {a : Answer} (hstep : p.Step s (.answer index a) s') :
    ∃ rd, Call.readAt rd ∈ calls ∧ Causes p rd index := by
  obtain ⟨t, ht, sh', t', new, hlocal⟩ := hstep.exists_mem
  have hcaused := (causedBy_of_reach hrun).task t ht
  cases hlocal with
  | readAt hr =>
      obtain ⟨hmem, started, hcall⟩ := hcaused
      cases hr with
      | fetch hf =>
          cases hf with
          | answer => exact ⟨_, hmem, .direct hcall⟩
  | required hr =>
      cases hr with
      | fetch hf =>
          cases hf with
          | answer => exact hcaused
  | readAhead hr =>
      cases hr with
      | readOk _ | readFailed _ => exact hcaused
  | orphan => exact hcaused
  | close hc => cases hc

/-! ## The chunks it has read -/

/-- `windowEnd` -/
def Prefetcher.windowEnd (p : Prefetcher) (rd : Read) : Int64 :=
  p.windowEndChunk (p.startChunk rd)

/-- A goroutine of the call reads a required chunk, or one after these in the window. -/
def Asked (p : Prefetcher) (rd : Read) : Task → Prop
  | .required index _ | .orphan index _ =>
      Schedules p rd ∧ p.startChunk rd ≤ index ∧ index ≤ p.endChunk rd
  | .readAhead index _ => Schedules p rd ∧ p.endChunk rd < index ∧ index ≤ p.windowEnd rd
  | .readAt _ _ | .close _ => False

/-- What holds where the call is, when it has started `n` goroutines that read ahead. -/
def PointOk (p : Prefetcher) (rd : Read) (n : Nat) : Reading → Prop
  | .begin => n = 0
  | .evict => Admitted p rd ∧ n = 0
  | .required index => Schedules p rd ∧ p.startChunk rd ≤ index ∧ n = 0
  | .register index =>
      Schedules p rd ∧ (p.startChunk rd ≤ index ∧ index ≤ p.endChunk rd) ∧ n = 0
  | .ahead index scheduled =>
      Schedules p rd ∧ p.endChunk rd < index ∧ scheduled.toInt = n ∧
        (n : Int) ≤ p.readAheadLimit.toInt
  | .registerAhead index scheduled =>
      Schedules p rd ∧ (p.endChunk rd < index ∧ index ≤ p.windowEnd rd) ∧ scheduled.toInt = n ∧
        scheduled < p.readAheadLimit
  | .copy index _ => Schedules p rd ∧ p.startChunk rd ≤ index ∧ (n : Int) ≤ p.readAheadLimit.toInt
  | .fetch index _ _ =>
      Schedules p rd ∧ (p.startChunk rd ≤ index ∧ index ≤ p.endChunk rd) ∧
        (n : Int) ≤ p.readAheadLimit.toInt
  | .done _ _ | .returned _ _ => (n : Int) ≤ p.readAheadLimit.toInt

theorem le_succ {bound : Int64} (hi : index ≤ bound) (hb : bound < Int64.maxValue)
    (h : low ≤ index) : low ≤ index + 1 := by
  have hsucc := toInt_succ hi hb
  rw [Int64.le_iff_toInt_le] at h ⊢
  omega

theorem lt_succ {bound : Int64} (hi : index ≤ bound) (hb : bound < Int64.maxValue)
    (h : low < index) : low < index + 1 := by
  have hsucc := toInt_succ hi hb
  rw [Int64.lt_iff_toInt_lt] at h ⊢
  omega

theorem readAheadLimit_le (p : Prefetcher) : p.readAheadLimit ≤ 1000 := by
  unfold Prefetcher.readAheadLimit
  dsimp only
  split
  case isTrue => exact Int64.le_refl _
  case isFalse h => exact Int64.not_lt.mp h

/-- The bounds of the loops have an index above them, and the limit is not negative. -/
structure Bounded (p : Prefetcher) (rd : Read) : Prop where
  required : p.endChunk rd < Int64.maxValue
  window : p.windowEnd rd < Int64.maxValue
  limit : 0 ≤ p.readAheadLimit.toInt

theorem enter_pointOk (hb : Bounded p rd) : PointOk p rd 0 (p.enter rd) := by
  unfold Prefetcher.enter
  cases hv : p.validateRead rd with
  | some e => exact hb.limit
  | none =>
      dsimp only
      split
      case isTrue => exact hb.limit
      case isFalse hlen => exact ⟨⟨hv, hlen⟩, rfl⟩

theorem copyFrom_pointOk (hb : Bounded p rd) {got data : Bytes}
    (h : PointOk p rd n (.fetch index got .start)) :
    PointOk p rd n (p.copyFrom rd index got data) := by
  obtain ⟨hs, ⟨hlow, hhigh⟩, hn⟩ := h
  unfold Prefetcher.copyFrom
  split
  · exact hn
  · exact ⟨hs, le_succ hhigh hb.required hlow, hn⟩

theorem aheads_fetch {f f' : Fetch} (h : p.FetchStep index sh f e sh' f' new) : aheads new = 0 :=
  List.countP_eq_zero.mpr fun t ht => by
    rw [fetchStep_new h t ht]
    exact Bool.false_ne_true

theorem registerAhead_pointOk (hb : Bounded p rd) {scheduled : Int64}
    (h : PointOk p rd n (.registerAhead index scheduled)) :
    PointOk p rd (n + 1) (.ahead (index + 1) (scheduled + 1)) := by
  obtain ⟨hs, hrange, hn, hlimit⟩ := h
  have hmax : p.readAheadLimit < Int64.maxValue :=
    Int64.lt_of_le_of_lt (readAheadLimit_le p) (by decide)
  have hcount := toInt_succ (Int64.le_of_lt hlimit) hmax
  have hlt := Int64.lt_iff_toInt_lt.mp hlimit
  refine ⟨hs, lt_succ hrange.2 hb.window hrange.1, ?_, ?_⟩
  · rw [hcount, hn]
    rfl
  · show ((n + 1 : Nat) : Int) ≤ _
    omega

/-- One step of the call. -/
theorem pointOk_step (hb : Bounded p rd) {r' : Reading} (h : PointOk p rd n r)
    (hstep : p.ReadStep rd sh r e sh' r' new) : PointOk p rd (n + aheads new) r' := by
  cases hstep with
  | refused _ =>
      cases h
      exact hb.limit
  | begin _ =>
      cases h
      exact enter_pointOk hb
  | evict =>
      obtain ⟨hadmitted, rfl⟩ := h
      split
      case isTrue => exact hb.limit
      case isFalse hends =>
        exact ⟨⟨hadmitted, Bool.eq_false_iff.mpr hends⟩, Int64.le_refl _, rfl⟩
  | requiredHit hi _ =>
      obtain ⟨hs, hlow, hn⟩ := h
      exact ⟨hs, le_succ hi hb.required hlow, hn⟩
  | requiredMiss hi _ | copyMiss hi _ _ =>
      obtain ⟨hs, hlow, hn⟩ := h
      exact ⟨hs, ⟨hlow, hi⟩, hn⟩
  | requiredEnd _ =>
      obtain ⟨hs, _, rfl⟩ := h
      have hsucc := toInt_succ (Int64.le_refl (p.endChunk rd)) hb.required
      exact ⟨hs, Int64.lt_iff_toInt_lt.mpr (by omega), rfl, hb.limit⟩
  | register _ | registerClosed _ =>
      obtain ⟨hs, hrange, hn⟩ := h
      exact ⟨hs, le_succ hrange.2 hb.required hrange.1, hn⟩
  | aheadHit hi _ _ =>
      obtain ⟨hs, hlow, hn⟩ := h
      exact ⟨hs, lt_succ hi hb.window hlow, hn⟩
  | aheadMiss hi hlimit _ =>
      obtain ⟨hs, hlow, hn, _⟩ := h
      exact ⟨hs, ⟨hlow, hi⟩, hn, hlimit⟩
  | aheadEnd _ =>
      obtain ⟨hs, _, _, hn⟩ := h
      exact ⟨hs, Int64.le_refl _, hn⟩
  | registerAhead _ => exact registerAhead_pointOk hb h
  | registerAheadClosed _ =>
      obtain ⟨hs, hrange, hn, hlimit⟩ := h
      have hlt := Int64.lt_iff_toInt_lt.mp hlimit
      exact ⟨hs, lt_succ hrange.2 hb.window hrange.1, hn, show (n : Int) ≤ _ by omega⟩
  | copyHit hi _ _ =>
      obtain ⟨hs, hlow, hn⟩ := h
      exact copyFrom_pointOk hb ⟨hs, ⟨hlow, hi⟩, hn⟩
  | copyEnd _ | fetchFailed => exact h.2.2
  | fetch hf =>
      rw [aheads_fetch hf]
      exact h
  | fetched => exact copyFrom_pointOk hb h
  | done => exact h

theorem asked_step {r' : Reading} (h : PointOk p rd n r)
    (hstep : p.ReadStep rd sh r e sh' r' new) : ∀ t ∈ new, Asked p rd t := by
  cases hstep with
  | register _ | registerAhead _ =>
      intro t ht
      rw [List.mem_singleton.mp ht]
      exact ⟨h.1, h.2.1⟩
  | fetch hf =>
      intro t ht
      rw [fetchStep_new hf t ht]
      exact ⟨h.1, h.2.1⟩
  | _ => exact fun t ht => absurd ht List.not_mem_nil

/-- The whole call. -/
theorem CallRun.pointOk (hb : Bounded p rd) {started : List Task} (h : CallRun p rd r started) :
    PointOk p rd (aheads started) r ∧ ∀ t ∈ started, Asked p rd t := by
  induction h with
  | begin => exact ⟨rfl, fun t ht => absurd ht List.not_mem_nil⟩
  | step _ hstep ih =>
      have hpoint := pointOk_step hb ih.1 hstep
      unfold aheads at hpoint ⊢
      rw [List.countP_append]
      refine ⟨hpoint, fun t ht => ?_⟩
      exact (List.mem_append.mp ht).elim (ih.2 t) (asked_step ih.1 hstep t)

theorem PointOk.le_limit (hb : Bounded p rd) (h : PointOk p rd n r) :
    (n : Int) ≤ p.readAheadLimit.toInt := by
  have hzero : n = 0 → (n : Int) ≤ p.readAheadLimit.toInt := fun hn => hn ▸ hb.limit
  cases r with
  | begin => exact hzero h
  | evict => exact hzero h.2
  | required _ => exact hzero h.2.2
  | register _ => exact hzero h.2.2
  | ahead _ _ => exact h.2.2.2
  | registerAhead _ _ =>
      have hlt := Int64.lt_iff_toInt_lt.mp h.2.2.2
      have hn := h.2.2.1
      omega
  | copy _ _ => exact h.2.2
  | fetch _ _ _ => exact h.2.2
  | done _ _ => exact h
  | returned _ _ => exact h

/-- What a call causes is required, or in the window behind. -/
theorem Causes.range (hb : Bounded p rd) (h : Causes p rd index) :
    Schedules p rd ∧ (p.startChunk rd ≤ index ∧ index ≤ p.endChunk rd ∨
      p.endChunk rd < index ∧ index ≤ p.windowEnd rd) := by
  cases h with
  | direct h =>
      obtain ⟨hs, hrange, _⟩ := (h.pointOk hb).1
      exact ⟨hs, .inl hrange⟩
  | @task _ _ t h ht hchunk =>
      have hasked := (h.pointOk hb).2 t ht
      cases t with
      | required i _ =>
          cases hchunk
          exact ⟨hasked.1, .inl hasked.2⟩
      | orphan i _ =>
          cases hchunk
          exact ⟨hasked.1, .inl hasked.2⟩
      | readAhead i _ =>
          cases hchunk
          exact ⟨hasked.1, .inr hasked.2⟩
      | readAt _ _ => exact hasked.elim
      | close _ => exact hasked.elim

/-! ### It may read every one of them -/

/-- A required chunk is missed, and a goroutine is started for it. -/
theorem Solo.register {A : Int64 → Answer} (hf : Fresh A sh) (hi : index ≤ p.endChunk rd) :
    Solo p A rd sh (.required index) { sh with wg := sh.wg + 1 } (.required (index + 1)) := by
  have hmiss : Solo p A rd sh (.required index) sh (.register index) :=
    .step (.requiredMiss hi (hf.empty index))
  exact hmiss.trans (.step (.register hf.closed))

theorem pred_toInt (h : low < index) : (index - 1).toInt = index.toInt - 1 := by
  have hlow := Int64.le_toInt low
  have hlt := Int64.toInt_lt index
  have h' := Int64.lt_iff_toInt_lt.mp h
  rw [Int64.toInt_sub, one_toInt, bmod_small (by omega) (by omega)]

/-- The call, running alone, comes to every required chunk. -/
theorem solo_requiredAt (A : Int64 → Answer) (h : Schedules p rd) (hlow : p.startChunk rd ≤ index)
    (hhigh : index ≤ p.endChunk rd) :
    ∃ sh, Fresh A sh ∧ Solo p A rd Shared.initial .begin sh (.required index) := by
  have hle := Int64.le_iff_toInt_le.mp hlow
  induction hn : (index.toInt - (p.startChunk rd).toInt).toNat generalizing index with
  | zero =>
      have hsame : index = p.startChunk rd := Int64.toInt_inj.mp (by omega)
      exact hsame ▸ solo_firstRequired A h.1 h.2
  | succ n ih =>
      -- the index before is required too
      have hpred := pred_toInt (Int64.lt_iff_toInt_lt.mpr (show _ < index.toInt by omega) :
        p.startChunk rd < index)
      have hhigh' : index - 1 ≤ p.endChunk rd := by
        rw [Int64.le_iff_toInt_le] at hhigh ⊢
        omega
      obtain ⟨sh, hf, hrun⟩ :=
        ih (Int64.le_iff_toInt_le.mpr (by omega)) hhigh' (by omega) (by omega)
      have hnext := Solo.register hf hhigh'
      rw [Int64.sub_add_cancel] at hnext
      exact ⟨_, hf.registered, hrun.trans hnext⟩

/-- The goroutine of a required chunk asks the reader for it, while the others wait. -/
theorem required_asks {A : Int64 → Answer} (hf : Fresh A sh) (index : Int64) (others : List Task) :
    ∃ s, Reach p.Step (AnswersBy A) ⟨sh, others ++ [.required index .start]⟩ s ∧
      ∀ a, ∃ s', p.Step s (.answer index a) s' := by
  have hstep : ∀ {sh sh' : Shared} {r r' : Required}, p.RequiredStep index sh r .tau sh' r' [] →
      Reach p.Step (AnswersBy A) ⟨sh, others ++ [.required index r]⟩
        ⟨sh', others ++ [.required index r']⟩ :=
    fun h => .single (.inl rfl) (TaskStep.single others [] (.required h))
  have hlook := hstep (.start hf.closed)
  have hmiss := hstep (.miss (hf.empty index))
  have hlead := hstep (.fetch (.lead (hf.flights index)))
  have hempty : (sh.newCall index).cache.hasChunk index = false := hf.empty index
  have hlookup := hstep (.fetch (.miss (c := sh.nextCall) hempty))
  have htoken : (sh.newCall index).semaphore < p.tokens := by
    rw [show (sh.newCall index).semaphore = 0 from hf.semaphore]
    exact tokens_pos p
  have hacquire := hstep (.fetch (.acquire (c := sh.nextCall) htoken))
  refine ⟨_, hlook.trans (hmiss.trans (hlead.trans (hlookup.trans hacquire))), fun a => ?_⟩
  exact ⟨_, TaskStep.single others [] (.required (.fetch .answer))⟩

/-- In some run of the call alone the reader is asked for the required chunk. -/
theorem asks_required (A : Int64 → Answer) (h : Schedules p rd) (hlow : p.startChunk rd ≤ index)
    (hhigh : index ≤ p.endChunk rd) :
    ∃ s, Reach p.Step (AnswersBy A) (start [.readAt rd]) s ∧
      ∀ a, ∃ s', p.Step s (.answer index a) s' := by
  obtain ⟨sh, hf, hrun⟩ := solo_requiredAt A h hlow hhigh
  obtain ⟨rest, hreach⟩ := hrun []
  have hmiss : p.Step ⟨sh, .readAt rd (.required index) :: rest⟩ .tau
      ⟨sh, .readAt rd (.register index) :: rest⟩ :=
    TaskStep.single [] rest (.readAt (.requiredMiss hhigh (hf.empty index)))
  have hregister : p.Step ⟨sh, .readAt rd (.register index) :: rest⟩ .tau
      ⟨{ sh with wg := sh.wg + 1 }, .readAt rd (.required (index + 1)) :: rest ++
        [.required index .start]⟩ :=
    TaskStep.mk [] rest (.readAt (.register hf.closed))
  obtain ⟨s, hasks, hanswer⟩ :=
    required_asks hf.registered index (.readAt rd (.required (index + 1)) :: rest)
  exact ⟨s, ((hreach.tail (.inl rfl) hmiss).tail (.inl rfl) hregister).trans hasks, hanswer⟩

theorem Causes.of_required (h : Schedules p rd) (hlow : p.startChunk rd ≤ index)
    (hhigh : index ≤ p.endChunk rd) : Causes p rd index := by
  obtain ⟨s, hrun, hanswer⟩ := asks_required (fun _ => ⟨[], none⟩) h hlow hhigh
  obtain ⟨s', hstep⟩ := hanswer ⟨[], none⟩
  obtain ⟨rd', hmem, hcauses⟩ := causes_of_answer hrun hstep
  cases List.mem_singleton.mp hmem
  exact hcauses

theorem CallRun.exists_ahead (h : Schedules p rd) (hmax : p.endChunk rd < Int64.maxValue) :
    ∃ started, CallRun p rd (.ahead (p.endChunk rd + 1) 0) started := by
  obtain ⟨sh, hf, hfirst⟩ := solo_firstRequired (fun _ => ⟨[], none⟩) h.1 h.2
  obtain ⟨sh', _, hrequired⟩ := solo_required hmax hf (p.startChunk rd)
  obtain ⟨rest, hreach⟩ := (hfirst.trans hrequired) []
  have hrun : Reach p.Step _ (start [.readAt rd]) _ := hreach
  exact ((causedBy_of_reach hrun).task _ List.mem_cons_self).2

/-- The shared state when the cache has the chunk. -/
def Shared.having (index : Int64) : Shared :=
  { Shared.initial with
    cache := { newChunkCache with chunkMap := AList.singleton index ⟨index, [], 0⟩ } }

theorem hasChunk_having (index : Int64) : (Shared.having index).cache.hasChunk index = true := by
  unfold Shared.having ChunkCache.hasChunk
  dsimp only
  rw [AList.lookup_isSome, AList.mem_keys, AList.keys_singleton]
  exact List.mem_singleton_self _

theorem CallRun.exists_ahead_at (h : Schedules p rd) (hlimit : 0 < p.readAheadLimit)
    (hlow : p.endChunk rd < index) (hhigh : index ≤ p.windowEnd rd) :
    ∃ started, CallRun p rd (.ahead index 0) started := by
  have hlt := Int64.lt_iff_toInt_lt.mp hlow
  have hmax : p.endChunk rd < Int64.maxValue :=
    Int64.lt_of_lt_of_le hlow (Int64.le_iff_toInt_le.mpr (by
      have := Int64.toInt_lt index
      rw [maxValue_toInt]
      omega))
  have hfirst := toInt_succ (Int64.le_refl (p.endChunk rd)) hmax
  induction hn : (index.toInt - (p.endChunk rd).toInt - 1).toNat generalizing index with
  | zero =>
      obtain ⟨started, hrun⟩ := CallRun.exists_ahead h hmax
      have hsame : index = p.endChunk rd + 1 := Int64.toInt_inj.mp (by omega)
      exact ⟨started, hsame ▸ hrun⟩
  | succ n ih =>
      -- the chunks before it are in the cache when they are looked up
      have hpred := pred_toInt hlow
      have hhigh' : index - 1 ≤ p.windowEnd rd := by
        rw [Int64.le_iff_toInt_le] at hhigh ⊢
        omega
      have hlow' : p.endChunk rd < index - 1 := Int64.lt_iff_toInt_lt.mpr (by omega)
      obtain ⟨started, hrun⟩ := ih hlow' hhigh' (by omega) (by omega)
      have hstep : p.ReadStep rd (Shared.having (index - 1)) (.ahead (index - 1) 0) .tau _
          (.ahead (index - 1 + 1) 0) [] :=
        .aheadHit hhigh' hlimit (hasChunk_having _)
      rw [Int64.sub_add_cancel] at hstep
      exact ⟨_, hrun.step hstep⟩

/-- A goroutine that reads ahead is started for any chunk behind the required ones. -/
theorem CallRun.exists_readAhead (h : Schedules p rd) (hlimit : 0 < p.readAheadLimit)
    (hlow : p.endChunk rd < index) (hhigh : index ≤ p.windowEnd rd) :
    ∃ r started, CallRun p rd r started ∧ Task.readAhead index .start ∈ started := by
  obtain ⟨started, hrun⟩ := CallRun.exists_ahead_at h hlimit hlow hhigh
  have hmiss : p.ReadStep rd Shared.initial (.ahead index 0) .tau _ (.registerAhead index 0) [] :=
    .aheadMiss hhigh hlimit rfl
  have hregister : p.ReadStep rd Shared.initial (.registerAhead index 0) .tau _
      (.ahead (index + 1) (0 + 1)) [.readAhead index .start] := .registerAhead rfl
  exact ⟨_, _, (hrun.step hmiss).step hregister,
    List.mem_append_right _ (List.mem_singleton_self _)⟩

theorem Causes.of_readAhead (h : Schedules p rd) (hlimit : 0 < p.readAheadLimit)
    (hlow : p.endChunk rd < index) (hhigh : index ≤ p.windowEnd rd) :
    Causes p rd index := by
  obtain ⟨r, started, hrun, hmem⟩ := CallRun.exists_readAhead h hlimit hlow hhigh
  exact .task hrun hmem rfl

/-! ## The end of the window -/

theorem bmod_le {x : Int} (h : 0 ≤ x) : x.bmod (2 ^ 64) ≤ x := by
  rw [Int.bmod_def]
  split
  · omega
  · omega

/-- The window size. -/
def Prefetcher.window (p : Prefetcher) : Nat := p.config.windowSize.toInt.toNat

/-- How many chunks the window spans. -/
def Prefetcher.windowCount (p : Prefetcher) : Nat := (p.window + p.chunk - 1) / p.chunk

/-- How many the code takes it to span: the sum may wrap around. -/
def Prefetcher.windowTaken (p : Prefetcher) : Nat :=
  if p.window + p.chunk ≤ 2 ^ 63 then p.windowCount else 1

/-- The last chunk of the window from the first required chunk. -/
def lastInWindow (p : Prefetcher) (rd : Read) : Nat := rd.start / p.chunk + p.windowCount - 1

/-- The last chunk of the file. -/
def lastInFile (p : Prefetcher) : Nat := (p.size.toInt.toNat - 1) / p.chunk

/-- `windowChunks`, before it is raised to one -/
def Prefetcher.windowChunks (p : Prefetcher) : Int64 :=
  (p.config.windowSize + p.config.chunkSize - 1) / p.config.chunkSize

/-- `windowEnd`, before it is cut off at the end of the file -/
def Prefetcher.windowReach (p : Prefetcher) (rd : Read) : Int64 :=
  p.startChunk rd + (if p.windowChunks < 1 then 1 else p.windowChunks) - 1

/-- `maxChunk` -/
def Prefetcher.maxChunk (p : Prefetcher) : Int64 := (p.size - 1) / p.config.chunkSize

theorem windowEnd_eq (p : Prefetcher) (rd : Read) :
    p.windowEnd rd =
      if p.size > 0 then if p.windowReach rd > p.maxChunk then p.maxChunk else p.windowReach rd
      else p.windowReach rd := rfl

/-- `New` makes the window at least as large as a chunk. -/
theorem new_window (size : Int64) (configs : List Config) :
    (Prefetcher.new size configs).config.chunkSize ≤
      (Prefetcher.new size configs).config.windowSize := by
  unfold Prefetcher.new Config.normalized
  dsimp only
  split
  case isTrue => exact Int64.le_refl _
  case isFalse h => exact Int64.not_lt.mp h

section

variable (hw : p.config.chunkSize ≤ p.config.windowSize)

include hw

theorem chunk_le_window : p.chunk ≤ p.window := by
  have h := Int64.le_iff_toInt_le.mp hw
  rw [chunk_toInt] at h
  unfold Prefetcher.window
  omega

theorem window_toInt : p.config.windowSize.toInt = p.window := by
  have h := Int64.le_iff_toInt_le.mp hw
  rw [chunk_toInt] at h
  unfold Prefetcher.window
  omega

theorem window_lt : p.window < 2 ^ 63 := by
  have h := Int64.toInt_lt p.config.windowSize
  rw [window_toInt hw] at h
  omega

theorem windowCount_pos : 1 ≤ p.windowCount := by
  have hpos := chunk_pos p
  have hle := chunk_le_window hw
  exact (Nat.one_le_div_iff hpos).mpr (by omega)

/-- The sum of the two sizes wraps around if it is too large. -/
theorem windowSum_exact_iff :
    (p.config.windowSize + p.config.chunkSize).toInt =
      p.config.windowSize.toInt + p.config.chunkSize.toInt ↔ p.window + p.chunk < 2 ^ 63 := by
  have hlt := Int64.toInt_lt (p.config.windowSize + p.config.chunkSize)
  rw [window_toInt hw, chunk_toInt]
  constructor
  · intro h
    omega
  · intro h
    rw [Int64.toInt_add, window_toInt hw, chunk_toInt, bmod_small (by omega) (by omega)]

theorem windowChunks_toInt (hsum : p.window + p.chunk ≤ 2 ^ 63) :
    p.windowChunks.toInt = p.windowCount := by
  have hpos := chunk_pos p
  have hspan : (p.config.windowSize + p.config.chunkSize - 1).toInt =
      (p.window + p.chunk - 1 : Nat) := by
    rw [Int64.toInt_sub, Int64.toInt_add, window_toInt hw, chunk_toInt, one_toInt,
      Int.bmod_sub_bmod, bmod_small (by omega) (by omega)]
    omega
  unfold Prefetcher.windowChunks Prefetcher.windowCount
  rw [Int64.toInt_div, chunk_toInt, hspan, tdiv_nat]
  exact bmod_nat (Nat.lt_of_le_of_lt (Nat.div_le_self _ _) (by omega))

theorem windowChunks_wrapped (hsum : 2 ^ 63 < p.window + p.chunk) : p.windowChunks.toInt ≤ 0 := by
  have hlt := window_lt hw
  have hlt' := chunk_lt p
  have hspan : (p.config.windowSize + p.config.chunkSize - 1).toInt =
      -(2 ^ 64 - (p.window + p.chunk - 1) : Nat) := by
    have hwrap : ((p.window : Int) + p.chunk - 1) =
        -(2 ^ 64 - (p.window + p.chunk - 1) : Nat) + (2 ^ 64 : Nat) := by
      rw [show ((2 ^ 64 : Nat) : Int) = 2 ^ 64 from rfl]
      omega
    rw [Int64.toInt_sub, Int64.toInt_add, window_toInt hw, chunk_toInt, one_toInt,
      Int.bmod_sub_bmod, hwrap, Int.add_bmod_right]
    exact bmod_small (by omega) (by omega)
  unfold Prefetcher.windowChunks
  rw [Int64.toInt_div, chunk_toInt, hspan, Int.neg_tdiv, tdiv_nat,
    bmod_neg_nat (Nat.le_trans (Nat.div_le_self _ _) (by omega))]
  exact Int.neg_nonpos_of_nonneg (Int.natCast_nonneg _)

theorem windowChunks_raised :
    (if p.windowChunks < 1 then 1 else p.windowChunks).toInt = p.windowTaken := by
  have hcount := windowCount_pos hw
  unfold Prefetcher.windowTaken
  by_cases hsum : p.window + p.chunk ≤ 2 ^ 63
  · have hchunks := windowChunks_toInt hw hsum
    have hnot : ¬ p.windowChunks < 1 := fun hlt => by
      have := Int64.lt_iff_toInt_lt.mp hlt
      rw [hchunks, one_toInt] at this
      omega
    rw [if_neg hnot, if_pos hsum, hchunks]
  · have hchunks := windowChunks_wrapped hw (by omega)
    have hlt : p.windowChunks < 1 := Int64.lt_iff_toInt_lt.mpr (by rw [one_toInt]; omega)
    rw [if_pos hlt, if_neg hsum]
    exact one_toInt

theorem windowTaken_bounds :
    1 ≤ p.windowTaken ∧ p.windowTaken ≤ p.windowCount ∧ p.windowTaken < 2 ^ 63 := by
  have hcount := windowCount_pos hw
  have hraised := windowChunks_raised hw
  have hlt := Int64.toInt_lt (if p.windowChunks < 1 then 1 else p.windowChunks)
  refine ⟨?_, ?_, by omega⟩
  · unfold Prefetcher.windowTaken
    split
    · exact hcount
    · exact Nat.le_refl 1
  · unfold Prefetcher.windowTaken
    split
    · exact Nat.le_refl _
    · exact hcount

variable (hoff : rd.off.toInt = rd.start)

include hoff

theorem windowReach_bmod : (p.windowReach rd).toInt =
    (((rd.start / p.chunk : Nat) : Int) + p.windowTaken - 1).bmod (2 ^ 64) := by
  unfold Prefetcher.windowReach
  rw [Int64.toInt_sub, Int64.toInt_add, windowChunks_raised hw, startChunk_toInt p hoff, one_toInt,
    Int.bmod_sub_bmod]

/-- However the sums wrap around, the window does not become larger. -/
theorem windowReach_le : (p.windowReach rd).toInt ≤ lastInWindow p rd := by
  obtain ⟨hone, hle, hlt⟩ := windowTaken_bounds hw
  have hstart_lt := Nat.lt_of_le_of_lt (Nat.div_le_self rd.start p.chunk) (start_lt rd)
  unfold lastInWindow
  rw [windowReach_bmod hw hoff]
  generalize rd.start / p.chunk = first at hstart_lt ⊢
  have hbmod : ((first : Int) + p.windowTaken - 1).bmod (2 ^ 64) ≤
      (first : Int) + p.windowTaken - 1 :=
    bmod_le (by omega)
  omega

/-- The end of the window is what it should be, if no sum wraps around. -/
theorem windowReach_toInt (hsum : p.window + p.chunk ≤ 2 ^ 63)
    (hend : rd.start / p.chunk + p.windowCount ≤ 2 ^ 63) :
    (p.windowReach rd).toInt = lastInWindow p rd := by
  have hone := windowCount_pos hw
  have htaken : p.windowTaken = p.windowCount := if_pos hsum
  unfold lastInWindow
  rw [windowReach_bmod hw hoff, htaken]
  generalize rd.start / p.chunk = first at hend ⊢
  rw [bmod_small (by omega) (by omega)]
  omega

end

theorem maxChunk_toInt (hsize : 0 < p.size.toInt) : p.maxChunk.toInt = lastInFile p := by
  have hlt := Int64.toInt_lt p.size
  have hpred : (p.size - 1).toInt = (p.size.toInt.toNat - 1 : Nat) := by
    rw [Int64.toInt_sub, one_toInt, bmod_small (by omega) (by omega)]
    omega
  unfold Prefetcher.maxChunk lastInFile
  rw [Int64.toInt_div, chunk_toInt, hpred, tdiv_nat]
  exact bmod_nat (Nat.lt_of_le_of_lt (Nat.div_le_self _ _) (by omega))

theorem windowEnd_le_reach (p : Prefetcher) (rd : Read) : p.windowEnd rd ≤ p.windowReach rd := by
  rw [windowEnd_eq]
  split
  · split
    case isTrue h => exact Int64.le_of_lt h
    case isFalse => exact Int64.le_refl _
  · exact Int64.le_refl _

theorem windowEnd_le_file (hsize : 0 < p.size.toInt) (rd : Read) :
    (p.windowEnd rd).toInt ≤ lastInFile p := by
  rw [← maxChunk_toInt hsize, ← Int64.le_iff_toInt_le, windowEnd_eq,
    if_pos (pos_iff_toInt.mpr hsize)]
  split
  case isTrue => exact Int64.le_refl _
  case isFalse h => exact Int64.not_lt.mp h

theorem lastInFile_lt (hsize : 0 < p.size.toInt) : lastInFile p < 2 ^ 63 - 1 := by
  have hlt := Int64.toInt_lt p.size
  have hle := Nat.div_le_self (p.size.toInt.toNat - 1) p.chunk
  unfold lastInFile
  omega

/-- Chunks up to the last of the file start inside it, and those after it do not. -/
theorem mul_lt_size_iff (hsize : 0 < p.size.toInt) (index : Nat) :
    ((index * p.chunk : Nat) : Int) < p.size.toInt ↔ index ≤ lastInFile p := by
  have hpos := chunk_pos p
  have hiff := Nat.le_div_iff_mul_le (x := index) (y := p.size.toInt.toNat - 1) hpos
  unfold lastInFile
  rw [hiff]
  omega

end

end BuilderShim.Prefetch
