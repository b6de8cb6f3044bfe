/-
  Prefetch/ReadAt.lean --- what `ReadAt` returns over a given source.

  The underlying reader is a relation between a request and its answer.  Over a
  reader that always reads in full the results of a call, in every run, are exactly
  one value, the one computed in `Exact` (`returns_iff`).  From it follows when two
  configurations agree on a read.
-/
import BuilderShim.Prefetch.Result

set_option autoImplicit false

namespace BuilderShim.Prefetch

open BuilderShim.Foundation

/-- What an underlying reader may answer to a request of `k` bytes at an offset. -/
abbrev Reader : Type := Int64 → Nat → Answer → Prop

/-- Every answer is one of the reader's. -/
def ReadsFrom (p : Prefetcher) (reader : Reader) : Event → Prop
  | .answer index a => reader (index * p.config.chunkSize) p.chunk a
  | .tau => True
  | .expire => True

/-- It reads all there is. -/
def FullReader (data : Bytes) : Reader := fun off k a =>
  a.data = slice data off.toInt.toNat k ∧ (a.err = none ∨ a.err = some .eof)

/-- The reader is as given, and no `ReadTimeout` expires. -/
def Calm (p : Prefetcher) (reader : Reader) (_ : Tasks Shared Task) (e : Event) : Prop :=
  ReadsFrom p reader e ∧ e ≠ .expire

/-- Some run with only `ReadAt` calls, in which the call of `rd` returns this. -/
def Returns (p : Prefetcher) (data : Bytes) (rd : Read) (got : Bytes) (err : Option Err) : Prop :=
  ∃ (reads : List Read) (s : Tasks Shared Task),
    Reach p.Step (Calm p (FullReader data)) (start (reads.map Call.readAt)) s ∧
      Task.readAt rd (.returned got err) ∈ s.tasks

section

variable {p : Prefetcher} {rd : Read} {data : Bytes}

/-- The offset a chunk is read at. -/
theorem offset_toInt {index : Int64} (hnonneg : 0 ≤ index.toInt)
    (hlt : index.toInt * p.chunk < 2 ^ 63) :
    (index * p.config.chunkSize).toInt.toNat = index.toInt.toNat * p.chunk := by
  have hmul : 0 ≤ index.toInt * p.chunk := Int.mul_nonneg hnonneg (by omega)
  rw [Int64.toInt_mul, chunk_toInt, bmod_small (by omega) hlt, Int.toNat_mul hnonneg (by omega),
    Int.toNat_natCast]

theorem exact_of_slice {index : Int64} {bytes : Bytes}
    (h : bytes = slice data (index * p.config.chunkSize).toInt.toNat p.chunk) :
    Exact p data index bytes := by
  intro hnonneg hlt
  rw [h, offset_toInt hnonneg hlt]

theorem not_close_mem (reads : List Read) : Call.close ∉ reads.map Call.readAt := by simp

theorem calm_admissible {s : Tasks Shared Task} {e : Event} (h : Calm p (FullReader data) s e) :
    Admissible (Exact p data) False e := by
  cases e with
  | tau => trivial
  | answer index a =>
      obtain ⟨⟨hdata, herr⟩, _⟩ := h
      refine ⟨fun _ => exact_of_slice hdata, fun hok => ?_⟩
      rcases herr with herr | herr
      · simp [Answer.ok, herr] at hok
      · simp [Answer.ok, herr] at hok
  | expire => exact h.2 rfl

/-- What the reader of the source answers: the end of the file where it comes up short. -/
def sourceAnswer (p : Prefetcher) (data : Bytes) (index : Int64) : Answer :=
  let bytes := slice data (index * p.config.chunkSize).toInt.toNat p.chunk
  ⟨bytes, if bytes.length < p.chunk then some .eof else none⟩

theorem sourceAnswer_ok (index : Int64) : (sourceAnswer p data index).ok = true := by
  unfold sourceAnswer Answer.ok
  dsimp only
  split
  · simp
  · simp

/-- A read that does not stall returns its result in some run over the source. -/
theorem exists_run (data : Bytes) (h : ¬ Stalls p rd) :
    ∃ s, Reach p.Step (AnswersBy (sourceAnswer p data)) (start [.readAt rd]) s ∧
      Task.readAt rd (.returned (p.result rd data).1 (p.result rd data).2) ∈ s.tasks := by
  obtain ⟨got, err, hout⟩ := exists_outcome (fun index => (sourceAnswer p data index).data) h
  obtain ⟨s, hrun, hmem⟩ := outcome_realised sourceAnswer_ok hout
  refine ⟨s, hrun, ?_⟩
  have hexact : Outcome p (Exact p data) False rd got err :=
    hout.mono fun index bytes hb => exact_of_slice hb
  rw [← hexact.exact.1]
  exact hmem

/-- Over a reader that reads in full, a call returns its result and nothing else. -/
theorem returns_iff {got : Bytes} {err : Option Err} :
    Returns p data rd got err ↔ (got, err) = p.result rd data ∧ ¬ Stalls p rd := by
  constructor
  · rintro ⟨reads, s, hrun, hmem⟩
    exact (outcome_of_reach (fun _ _ => calm_admissible)
      (fun h => (not_close_mem reads h).elim) hrun hmem).exact
  · rintro ⟨heq, hstall⟩
    obtain ⟨s, hrun, hmem⟩ := exists_run data hstall
    rw [← heq] at hmem
    refine ⟨[rd], s, hrun.mono fun s e he => ?_, hmem⟩
    rcases he with rfl | ⟨index, rfl⟩
    · exact ⟨trivial, by simp⟩
    · refine ⟨⟨rfl, ?_⟩, by simp⟩
      unfold sourceAnswer
      dsimp only
      split
      · exact .inr rfl
      · exact .inl rfl

end

/-! ## Two configurations -/

/-- How far a read gets whose end has wrapped around: chunk zero is copied if the wrapped
sum falls into it and the read starts in it. -/
def wrappedReach (size start len chunk : Nat) : Nat :=
  if 2 ^ 64 - (start + len - 1) < chunk ∧ start < chunk then min chunk size else start

/-- The chunk sizes `c₁` and `c₂` make no difference to a read of `len` bytes at `start`
from `size` bytes. -/
def TuningFree (size start len c₁ c₂ : Nat) : Prop :=
  size ≤ start ∨ start + len ≤ size ∨
    (start + len < 2 ^ 63 ∧
      (start / c₁ = (start + len - 1) / c₁ ↔ start / c₂ = (start + len - 1) / c₂)) ∨
    (start + len = 2 ^ 63 ∧ (c₁ = 1 ↔ c₂ = 1)) ∨
    (2 ^ 63 < start + len ∧ wrappedReach size start len c₁ = wrappedReach size start len c₂)

section

variable {p : Prefetcher} {rd : Read} {data : Bytes}

theorem result_beyond (hsize : p.size.toInt = data.length) (hpos : 0 < data.length)
    (hoff : rd.off.toInt = rd.start) (hlen : 0 < rd.len) (h : data.length ≤ rd.start) :
    p.result rd data = ([], some .offsetOutOfRange) := by
  have hnonneg : ¬ rd.off < 0 := by
    rw [Int64.lt_iff_toInt_lt, hoff, Int64.toInt_zero]
    omega
  have hzero : p.size ≠ 0 := by
    rw [← Int64.toInt_inj.ne, hsize, Int64.toInt_zero]
    omega
  have hbeyond : p.size > 0 ∧ rd.off ≥ p.size := by
    rw [gt_iff_lt, Int64.lt_iff_toInt_lt, ge_iff_le, Int64.le_iff_toInt_le, hoff, hsize,
      Int64.toInt_zero]
    omega
  simp [Prefetcher.result, Prefetcher.validateRead, hnonneg, Nat.ne_of_gt hlen, hzero, hbeyond]

theorem length_lt (hsize : p.size.toInt = data.length) : data.length < 2 ^ 63 := by
  have := Int64.toInt_lt p.size
  omega

/-- The error with which a read ends after `n` bytes. -/
theorem finalErr_slice (hsize : p.size.toInt = data.length) (hpos : 0 < data.length)
    (hoff : rd.off.toInt = rd.start) (hin : rd.start < data.length) (n : Nat) :
    p.finalErr rd (slice data rd.start n) =
      if data.length ≤ rd.start + n then some .eof else none := by
  have hlt := length_lt hsize
  have hbound : rd.start + (slice data rd.start n).length < 2 ^ 63 := by
    rw [length_slice]
    omega
  rw [finalErr_eq hoff hbound, hsize, length_slice]
  by_cases hend : data.length ≤ rd.start + n
  · rw [if_pos hend, if_pos]
    omega
  · rw [if_neg hend, if_neg]
    omega

theorem result_inside (hsize : p.size.toInt = data.length) (hoff : rd.off.toInt = rd.start)
    (hlen : 0 < rd.len) (h : rd.start + rd.len ≤ data.length) :
    p.result rd data = (slice data rd.start rd.len,
      if rd.start + rd.len = data.length then some .eof else none) := by
  have hlt := length_lt hsize
  have hvalid : p.validateRead rd = none :=
    (validateRead_eq_none hoff hlen).mpr (.inr (by omega))
  have hends : p.endsInChunk rd = false := by
    rw [Bool.eq_false_iff, ne_eq, endsInChunk_iff hoff hlen (by omega), hsize]
    omega
  rw [result_admitted hlen hvalid hends, span_eq hoff hlen (by omega),
    finalErr_slice hsize (by omega) hoff (by omega)]
  congr 1
  by_cases hend : rd.start + rd.len = data.length
  · rw [if_pos hend, if_pos (by omega)]
  · rw [if_neg hend, if_neg (by omega)]

theorem result_past (hsize : p.size.toInt = data.length) (hoff : rd.off.toInt = rd.start)
    (hlen : 0 < rd.len) (hin : rd.start < data.length) (hpast : data.length < rd.start + rd.len)
    (hsum : rd.start + rd.len < 2 ^ 63) :
    p.result rd data =
      if rd.start / p.chunk = (rd.start + rd.len - 1) / p.chunk then ([], some .eof)
      else (slice data rd.start rd.len, some .eof) := by
  have hvalid : p.validateRead rd = none :=
    (validateRead_eq_none hoff hlen).mpr (.inr (by omega))
  by_cases hsame : rd.start / p.chunk = (rd.start + rd.len - 1) / p.chunk
  · have hends : p.endsInChunk rd = true := by
      rw [endsInChunk_iff hoff hlen hsum, hsize]
      exact ⟨by omega, hsame⟩
    simp [Prefetcher.result, hvalid, Nat.ne_of_gt hlen, hends, hsame]
  · have hends : p.endsInChunk rd = false := by
      rw [Bool.eq_false_iff, ne_eq, endsInChunk_iff hoff hlen hsum]
      exact fun h => hsame h.2
    rw [result_admitted hlen hvalid hends, span_eq hoff hlen (Nat.le_of_lt hsum),
      finalErr_slice hsize (by omega) hoff hin, if_pos (by omega), if_neg hsame]

theorem result_limit (hsize : p.size.toInt = data.length) (hoff : rd.off.toInt = rd.start)
    (hlen : 0 < rd.len) (hin : rd.start < data.length) (hsum : rd.start + rd.len = 2 ^ 63) :
    p.result rd data = (slice data rd.start rd.len, some .eof) := by
  have hlt := length_lt hsize
  have hvalid : p.validateRead rd = none :=
    (validateRead_eq_none hoff hlen).mpr (.inr (by omega))
  rw [result_admitted hlen hvalid (endsInChunk_wrapped hoff (by omega)),
    span_eq hoff hlen (by omega), finalErr_slice hsize (by omega) hoff hin, if_pos (by omega)]

theorem result_wrapped (hsize : p.size.toInt = data.length) (hoff : rd.off.toInt = rd.start)
    (hlen : 0 < rd.len) (hin : rd.start < data.length) (hsum : 2 ^ 63 < rd.start + rd.len) :
    p.result rd data =
      (slice data rd.start (wrappedReach data.length rd.start rd.len p.chunk - rd.start),
        if wrappedReach data.length rd.start rd.len p.chunk = data.length then some .eof
        else none) := by
  have hvalid : p.validateRead rd = none :=
    (validateRead_eq_none hoff hlen).mpr (.inr (by omega))
  rw [result_admitted hlen hvalid (endsInChunk_wrapped hoff (by omega)),
    finalErr_slice hsize (by omega) hoff hin, span_wrapped hoff hsum]
  unfold wrappedReach
  by_cases hm : 2 ^ 64 - (rd.start + rd.len - 1) < p.chunk
  · by_cases hc : rd.start < p.chunk
    · simp only [hm, hc, and_self, if_true]
      rcases Nat.le_total p.chunk data.length with hle | hle
      · rw [Nat.min_eq_left hle]
        congr 1
        by_cases heq : p.chunk = data.length
        · rw [if_pos heq, if_pos (by omega)]
        · rw [if_neg heq, if_neg (by omega)]
      · rw [Nat.min_eq_right hle, if_pos rfl, if_pos (by omega)]
        congr 1
        exact slice_eq_of_le (by omega) (by omega)
    · simp only [hm, hc, and_false, if_true, if_false, Nat.sub_eq_zero_of_le (Nat.not_lt.mp hc)]
      rw [Nat.sub_self, if_neg (by omega), if_neg (by omega)]
  · simp only [hm, false_and, if_false]
    rw [Nat.sub_self, if_neg (by omega), if_neg (by omega)]

theorem wrappedReach_le (size start len chunk : Nat) (h : start < size) :
    start ≤ wrappedReach size start len chunk ∧ wrappedReach size start len chunk ≤ size := by
  unfold wrappedReach
  split
  · omega
  · omega

end

section

variable {p₁ p₂ : Prefetcher} {rd : Read} {data : Bytes}

/-- Two prefetchers return the same if both stall or neither does, and then by their
results. -/
theorem returns_same_iff :
    (∀ got err, Returns p₁ data rd got err ↔ Returns p₂ data rd got err) ↔
      (Stalls p₁ rd ↔ Stalls p₂ rd) ∧
        (¬ Stalls p₁ rd → p₁.result rd data = p₂.result rd data) := by
  simp only [returns_iff]
  constructor
  · intro h
    have h₁ := h (p₁.result rd data).1 (p₁.result rd data).2
    have h₂ := h (p₂.result rd data).1 (p₂.result rd data).2
    simp only [true_and] at h₁ h₂
    refine ⟨⟨fun hs => ?_, fun hs => ?_⟩, fun hs => (h₁.mp hs).1⟩
    · exact Classical.byContradiction fun hn => (h₂.mpr hn).2 hs
    · exact Classical.byContradiction fun hn => (h₁.mp hn).2 hs
  · rintro ⟨hstall, heq⟩ got err
    constructor
    · rintro ⟨hres, hs⟩
      exact ⟨hres.trans (heq hs), fun h => hs (hstall.mpr h)⟩
    · rintro ⟨hres, hs⟩
      have hs₁ : ¬ Stalls p₁ rd := fun h => hs (hstall.mp h)
      exact ⟨hres.trans (heq hs₁).symm, hs₁⟩

variable (hsize₁ : p₁.size.toInt = data.length) (hsize₂ : p₂.size.toInt = data.length)
variable (hoff : rd.off.toInt = rd.start) (hlen : 0 < rd.len)

include hoff hlen in
theorem not_stalls (p : Prefetcher) (hsum : rd.start + rd.len ≠ 2 ^ 63) : ¬ Stalls p rd := by
  intro hs
  exact hsum ((stalls_iff hoff hlen hs.valid).mp hs).1

include hsize₁ hsize₂ hoff hlen in
/-- A read that runs past the end: it matters whether it crosses a chunk boundary. -/
theorem same_past_iff (hin : rd.start < data.length) (hpast : data.length < rd.start + rd.len)
    (hsum : rd.start + rd.len < 2 ^ 63) :
    p₁.result rd data = p₂.result rd data ↔
      (rd.start / p₁.chunk = (rd.start + rd.len - 1) / p₁.chunk ↔
        rd.start / p₂.chunk = (rd.start + rd.len - 1) / p₂.chunk) := by
  rw [result_past hsize₁ hoff hlen hin hpast hsum, result_past hsize₂ hoff hlen hin hpast hsum]
  have hsome : slice data rd.start rd.len ≠ [] := by
    intro hnil
    have hzero := congrArg List.length hnil
    rw [length_slice, List.length_nil] at hzero
    omega
  by_cases hc₁ : rd.start / p₁.chunk = (rd.start + rd.len - 1) / p₁.chunk
  · by_cases hc₂ : rd.start / p₂.chunk = (rd.start + rd.len - 1) / p₂.chunk
    · simp [hc₁, hc₂]
    · simp [hc₁, hc₂, hsome.symm]
  · by_cases hc₂ : rd.start / p₂.chunk = (rd.start + rd.len - 1) / p₂.chunk
    · simp [hc₁, hc₂, hsome]
    · simp [hc₁, hc₂]

include hsize₁ hsize₂ hoff hlen in
theorem same_wrapped_iff (hin : rd.start < data.length) (hsum : 2 ^ 63 < rd.start + rd.len) :
    p₁.result rd data = p₂.result rd data ↔
      wrappedReach data.length rd.start rd.len p₁.chunk =
        wrappedReach data.length rd.start rd.len p₂.chunk := by
  rw [result_wrapped hsize₁ hoff hlen hin hsum, result_wrapped hsize₂ hoff hlen hin hsum]
  constructor
  · intro heq
    have hlength := congrArg (fun r => r.1.length) heq
    simp only [length_slice] at hlength
    have h₁ := wrappedReach_le data.length rd.start rd.len p₁.chunk hin
    have h₂ := wrappedReach_le data.length rd.start rd.len p₂.chunk hin
    omega
  · intro heq
    rw [heq]

include hsize₁ hsize₂ hoff hlen in
/-- The results of two prefetchers over the same source agree on a read if and only if
their chunk sizes make no difference to it. -/
theorem tuningFree_iff (hpos : 0 < data.length) :
    ((Stalls p₁ rd ↔ Stalls p₂ rd) ∧
        (¬ Stalls p₁ rd → p₁.result rd data = p₂.result rd data)) ↔
      TuningFree data.length rd.start rd.len p₁.chunk p₂.chunk := by
  have hlt := length_lt hsize₁
  unfold TuningFree
  by_cases hbeyond : data.length ≤ rd.start
  · have hinvalid : ∀ p : Prefetcher, p.size.toInt = data.length → ¬ Stalls p rd := by
      intro p hsize hs
      have := (validateRead_eq_none hoff hlen).mp hs.valid
      omega
    rw [result_beyond hsize₁ hpos hoff hlen hbeyond, result_beyond hsize₂ hpos hoff hlen hbeyond]
    simp only [hinvalid p₁ hsize₁, hinvalid p₂ hsize₂, hbeyond, implies_true, and_self, true_or]
  · have hin : rd.start < data.length := Nat.not_le.mp hbeyond
    by_cases hinside : rd.start + rd.len ≤ data.length
    · have hs : ∀ p : Prefetcher, ¬ Stalls p rd :=
        fun p => not_stalls hoff hlen p (by omega)
      rw [result_inside hsize₁ hoff hlen hinside, result_inside hsize₂ hoff hlen hinside]
      simp only [hs p₁, hs p₂, hinside, implies_true, and_self, true_or, or_true]
    · have hpast : data.length < rd.start + rd.len := Nat.not_le.mp hinside
      rcases Nat.lt_trichotomy (rd.start + rd.len) (2 ^ 63) with hsum | hsum | hsum
      · have hs : ∀ p : Prefetcher, ¬ Stalls p rd :=
          fun p => not_stalls hoff hlen p (by omega)
        rw [same_past_iff hsize₁ hsize₂ hoff hlen hin hpast hsum]
        simp only [hs p₁, hs p₂, hbeyond, hinside, hsum, Nat.ne_of_lt hsum,
          Nat.lt_asymm hsum, false_and, true_and, false_or, or_false, not_false_eq_true,
          true_implies]
      · have hs : ∀ p : Prefetcher, p.size.toInt = data.length → (Stalls p rd ↔ p.chunk = 1) := by
          intro p hsize
          rw [stalls_iff hoff hlen ((validateRead_eq_none hoff hlen).mpr (.inr (by omega)))]
          exact and_iff_right hsum
        rw [result_limit hsize₁ hoff hlen hin hsum, result_limit hsize₂ hoff hlen hin hsum,
          hs p₁ hsize₁, hs p₂ hsize₂]
        have hlimit : (rd.start + rd.len = 2 ^ 63) = True := eq_true hsum
        have hbelow : ¬ rd.start + rd.len < 2 ^ 63 := by omega
        have habove : ¬ 2 ^ 63 < rd.start + rd.len := by omega
        simp only [hbeyond, hinside, hlimit, hbelow, habove, implies_true, and_true, true_and,
          false_and, false_or, or_false]
      · have hs : ∀ p : Prefetcher, ¬ Stalls p rd :=
          fun p => not_stalls hoff hlen p (by omega)
        rw [same_wrapped_iff hsize₁ hsize₂ hoff hlen hin hsum]
        simp only [hs p₁, hs p₂, hbeyond, hinside, hsum, Nat.ne_of_gt hsum,
          Nat.lt_asymm hsum, false_and, true_and, false_or, not_false_eq_true, true_implies]

end

/-- The results of a read do not depend on the configuration, if and only if the chunk
sizes make no difference to it. -/
theorem readAt_tuning_iff (data : Bytes) (size : Int64) (configs₁ configs₂ : List Config)
    (rd : Read) (hsize : size.toInt = data.length) (hpos : 0 < data.length)
    (hoff : 0 ≤ rd.off.toInt) (hlen : 0 < rd.len) :
    (∀ got err, Returns (.new size configs₁) data rd got err ↔
        Returns (.new size configs₂) data rd got err) ↔
      TuningFree data.length rd.start rd.len (Prefetcher.new size configs₁).chunk
        (Prefetcher.new size configs₂).chunk := by
  have hstart : rd.off.toInt = rd.start := by
    unfold Read.start
    omega
  rw [returns_same_iff]
  exact tuningFree_iff hsize hsize hstart hlen hpos

/-- A configuration with the given chunk size. -/
def configOf (chunkSize : Int64) : Config := ⟨chunkSize, chunkSize, 1, 1, 1, 0⟩

/-- Six bytes at offset two. -/
def readSix : Read := ⟨6, 2, by decide⟩

/-- Six bytes at offset two, of eight: chunks of four and chunks of five give the same. -/
theorem readAt_tuning_within :
    TuningFree 8 2 6 (Prefetcher.new 8 [configOf 4]).chunk (Prefetcher.new 8 [configOf 5]).chunk ∧
      ∀ got err, Returns (.new 8 [configOf 4]) [0, 1, 2, 3, 4, 5, 6, 7] readSix got err ↔
        Returns (.new 8 [configOf 5]) [0, 1, 2, 3, 4, 5, 6, 7] readSix got err := by
  have hfree : TuningFree 8 2 6 (Prefetcher.new 8 [configOf 4]).chunk
      (Prefetcher.new 8 [configOf 5]).chunk := .inr (.inl (by decide))
  exact ⟨hfree, (readAt_tuning_iff [0, 1, 2, 3, 4, 5, 6, 7] 8 [configOf 4] [configOf 5] readSix
    (by decide) (by decide) (by decide) (by decide)).mpr hfree⟩

/-- Six bytes at offset two, of six: with chunks of eight nothing is returned, with chunks
of four the four bytes that are there. -/
theorem readAt_tuning_differs :
    Returns (.new 6 [configOf 8]) [0, 1, 2, 3, 4, 5] readSix [] (some .eof) ∧
      ¬ Returns (.new 6 [configOf 4]) [0, 1, 2, 3, 4, 5] readSix [] (some .eof) ∧
      Returns (.new 6 [configOf 4]) [0, 1, 2, 3, 4, 5] readSix [2, 3, 4, 5] (some .eof) := by
  have hs : ∀ p : Prefetcher, ¬ Stalls p readSix :=
    fun p => not_stalls (by decide) (by decide) p (by decide)
  refine ⟨returns_iff.mpr ⟨by decide, hs _⟩, fun h => ?_, returns_iff.mpr ⟨by decide, hs _⟩⟩
  exact absurd (returns_iff.mp h).1 (by decide)

end BuilderShim.Prefetch
