/-
  Prefetch/Bounds.lean --- where a call reads, and whether its arithmetic is exact.

  The window is cut off at the end of the file and the required chunks are not, so a
  call reads beyond the end when its buffer ends in a chunk behind the last one.  The
  sums and products of a call are exact while the read, the window and, for a file of
  unknown size, the last chunk of the window stay below `2 ^ 63`.
-/
import BuilderShim.Prefetch.Range

set_option autoImplicit false

namespace BuilderShim.Prefetch

open BuilderShim.Foundation

section

variable {p : Prefetcher} {rd : Read}

/-! ## Numbers of a configuration -/

theorem readAheadLimit_toInt (hw : p.config.chunkSize ≤ p.config.windowSize) :
    p.readAheadLimit.toInt = (min (p.window / p.chunk) 1000 : Nat) := by
  have hlt := window_lt hw
  have hquot : (p.config.windowSize / p.config.chunkSize).toInt = (p.window / p.chunk : Nat) := by
    rw [Int64.toInt_div, chunk_toInt, window_toInt hw, tdiv_nat]
    exact bmod_nat (Nat.lt_of_le_of_lt (Nat.div_le_self _ _) hlt)
  have hcap : (1000 : Int64).toInt = 1000 := by decide
  unfold Prefetcher.readAheadLimit
  dsimp only
  split
  case isTrue h =>
    have := Int64.lt_iff_toInt_lt.mp h
    omega
  case isFalse h =>
    have := Int64.le_iff_toInt_le.mp (Int64.not_lt.mp h)
    omega

theorem readAheadLimit_pos (hw : p.config.chunkSize ≤ p.config.windowSize) :
    0 < p.readAheadLimit := by
  have hone : 1 ≤ p.window / p.chunk :=
    (Nat.one_le_div_iff (chunk_pos p)).mpr (chunk_le_window hw)
  rw [Int64.lt_iff_toInt_lt, readAheadLimit_toInt hw, Int64.toInt_zero]
  omega

/-- The offset of a chunk, where it is not too large. -/
theorem chunkStart_toInt {index : Int64} (hnonneg : 0 ≤ index.toInt)
    (hlt : index.toInt * p.chunk < 2 ^ 63) :
    (index * p.config.chunkSize).toInt = index.toInt * p.chunk := by
  have hmul : 0 ≤ index.toInt * p.chunk := Int.mul_nonneg hnonneg (by omega)
  rw [Int64.toInt_mul, chunk_toInt, bmod_small (by omega) hlt]

/-- A chunk of the file starts in it. -/
theorem chunkStart_lt_size (hsize : 0 < p.size.toInt) {index : Int64} (hnonneg : 0 ≤ index.toInt)
    (hle : index.toInt ≤ lastInFile p) :
    (index * p.config.chunkSize).toInt = index.toInt * p.chunk ∧
      index.toInt * p.chunk < p.size.toInt := by
  have hlt := Int64.toInt_lt p.size
  obtain ⟨n, hn⟩ := Int.eq_ofNat_of_zero_le hnonneg
  have hin := (mul_lt_size_iff hsize n).mpr (by omega)
  have hcast : index.toInt * p.chunk = (n * p.chunk : Nat) := by
    rw [hn, Int.natCast_mul]
  rw [← hcast] at hin
  exact ⟨chunkStart_toInt hnonneg (by omega), hin⟩

theorem off_toInt_of_valid (hvalid : p.validateRead rd = none) : rd.off.toInt = rd.start := by
  refine Read.off_toInt fun hneg => ?_
  unfold Prefetcher.validateRead at hvalid
  rw [if_pos hneg] at hvalid
  cases hvalid

theorem startChunk_nonneg (p : Prefetcher) (hoff : rd.off.toInt = rd.start) :
    0 ≤ (p.startChunk rd).toInt := by
  rw [startChunk_toInt p hoff]
  exact Int.natCast_nonneg _

theorem startChunk_le_lastInFile (hin : (rd.start : Int) < p.size.toInt) :
    rd.start / p.chunk ≤ lastInFile p :=
  Nat.div_le_div_right (by omega)

/-- Nothing is read for a read that is refused or has no buffer. -/
theorem CallRun.of_not_admitted (h : ¬ Admitted p rd) {r : Reading} {started : List Task}
    (hrun : CallRun p rd r started) :
    started = [] ∧ (r = .begin ∨ ∃ got err, r = .done got err ∨ r = .returned got err) := by
  induction hrun with
  | begin => exact ⟨rfl, .inl rfl⟩
  | step _ hstep ih =>
      obtain ⟨hnone, hpoint⟩ := ih
      rw [hnone]
      rcases hpoint with rfl | ⟨got, err, rfl | rfl⟩
      · cases hstep with
        | refused _ => exact ⟨rfl, .inr ⟨_, _, .inr rfl⟩⟩
        | begin _ =>
            refine ⟨rfl, .inr ?_⟩
            unfold Prefetcher.enter
            cases hv : p.validateRead rd with
            | some e => exact ⟨_, _, .inl rfl⟩
            | none =>
                dsimp only
                split
                case isTrue => exact ⟨_, _, .inl rfl⟩
                case isFalse hlen => exact absurd ⟨hv, hlen⟩ h
      · cases hstep with
        | done => exact ⟨rfl, .inr ⟨_, _, .inr rfl⟩⟩
      · cases hstep

theorem not_causes (h : ¬ Admitted p rd) (index : Int64) : ¬ Causes p rd index := by
  intro hcauses
  cases hcauses with
  | task hrun ht _ =>
      rw [(hrun.of_not_admitted h).1] at ht
      exact List.not_mem_nil ht
  | direct hrun =>
      rcases (hrun.of_not_admitted h).2 with heq | ⟨got, err, heq | heq⟩
      · cases heq
      · cases heq
      · cases heq

/-! ## Inside the file -/

/-- Every read the call causes starts in the file, those ahead are behind the chunks of the
buffer and in the window, and there are not too many of these. -/
structure StaysInside (p : Prefetcher) (rd : Read) : Prop where
  offset : ∀ index, Causes p rd index → index * p.config.chunkSize < p.size
  ahead : ∀ r started index state, CallRun p rd r started →
    Task.readAhead index state ∈ started →
      (((rd.start + rd.len - 1) / p.chunk : Nat) : Int) < index.toInt ∧
        index.toInt ≤ lastInWindow p rd
  limited : ∀ r started, CallRun p rd r started →
    aheads started ≤ min (p.window / p.chunk) 1000

/-- For a buffer whose end wraps around: the end is chunk zero and so is the end of the window, or
that has wrapped around further. -/
def WindowBehind (p : Prefetcher) (rd : Read) : Prop :=
  (rd.start / p.chunk + p.windowTaken ≤ 2 ^ 63 ∧ 2 ^ 64 - (rd.start + rd.len - 1) < p.chunk ∧
      (rd.start / p.chunk + p.windowTaken = 1 ∨ lastInFile p = 0)) ∨
    (2 ^ 63 < rd.start / p.chunk + p.windowTaken ∧
      rd.start / p.chunk + p.windowTaken - 1 + (2 ^ 64 - (rd.start + rd.len - 1)) / p.chunk ≤
        2 ^ 64)

/-- The buffer is empty or ends in a chunk of the file; or its end has wrapped around and
leaves no chunk to read ahead. -/
def EndsInFile (p : Prefetcher) (rd : Read) : Prop :=
  rd.len = 0 ∨
    (rd.start + rd.len ≤ 2 ^ 63 ∧ (rd.start + rd.len - 1) / p.chunk ≤ lastInFile p) ∨
    (2 ^ 63 < rd.start + rd.len ∧ WindowBehind p rd)

theorem endChunk_nonpos (hoff : rd.off.toInt = rd.start) (hsum : 2 ^ 63 < rd.start + rd.len) :
    (p.endChunk rd).toInt ≤ 0 := by
  rw [endChunk_wrapped p hoff hsum]
  exact Int.neg_nonpos_of_nonneg (Int.natCast_nonneg _)

section

variable (hw : p.config.chunkSize ≤ p.config.windowSize) (hsize : 0 < p.size.toInt)
  (hoff : rd.off.toInt = rd.start) (hin : (rd.start : Int) < p.size.toInt) (hlen : 0 < rd.len)

include hw hsize

theorem bounded_of_endChunk (hend : (p.endChunk rd).toInt ≤ lastInFile p) : Bounded p rd := by
  have hlast := lastInFile_lt hsize
  have hwindow := windowEnd_le_file hsize rd
  refine ⟨Int64.lt_iff_toInt_lt.mpr ?_, Int64.lt_iff_toInt_lt.mpr ?_, ?_⟩
  · rw [maxValue_toInt]
    omega
  · rw [maxValue_toInt]
    omega
  · rw [readAheadLimit_toInt hw]
    exact Int.natCast_nonneg _

include hoff

include hin in
theorem windowEnd_le_endChunk_iff (hsum : 2 ^ 63 < rd.start + rd.len) :
    p.windowEnd rd ≤ p.endChunk rd ↔ WindowBehind p rd := by
  have hfirst := startChunk_le_lastInFile hin
  have hlast := lastInFile_lt hsize
  have hreach := windowReach_bmod hw hoff
  obtain ⟨hone, _, hlt⟩ := windowTaken_bounds hw
  have hzero : (2 ^ 64 - (rd.start + rd.len - 1)) / p.chunk = 0 ↔
      2 ^ 64 - (rd.start + rd.len - 1) < p.chunk := Nat.div_eq_zero_iff_lt (chunk_pos p)
  unfold WindowBehind
  rw [Int64.le_iff_toInt_le, endChunk_wrapped p hoff hsum, windowEnd_eq,
    if_pos (pos_iff_toInt.mpr hsize), ← hzero]
  have hmax : p.windowReach rd > p.maxChunk ↔ (lastInFile p : Int) < (p.windowReach rd).toInt := by
    rw [← maxChunk_toInt hsize]
    exact Int64.lt_iff_toInt_lt
  generalize rd.start / p.chunk = first at hfirst hreach ⊢
  generalize (2 ^ 64 - (rd.start + rd.len - 1)) / p.chunk = back
  by_cases hend : first + p.windowTaken ≤ 2 ^ 63
  · rw [bmod_small (by omega) (by omega)] at hreach
    split
    case isTrue hcut =>
      have := hmax.mp hcut
      rw [maxChunk_toInt hsize]
      omega
    case isFalse hcut =>
      have := mt hmax.mpr hcut
      omega
  · -- the window has wrapped around, so it is not cut off
    have hwrap : (first : Int) + p.windowTaken - 1 =
        ((first : Int) + p.windowTaken - 1 - 2 ^ 64) + (2 ^ 64 : Nat) := by
      rw [show ((2 ^ 64 : Nat) : Int) = 2 ^ 64 from rfl]
      omega
    rw [hwrap, Int.add_bmod_right, bmod_small (by omega) (by omega)] at hreach
    rw [if_neg (fun h => by have := hmax.mp h; omega)]
    omega

include hlen

include hin in
theorem endsInFile_of_staysInside (hadmitted : Admitted p rd) (h : StaysInside p rd) :
    EndsInFile p rd := by
  have hfirst := startChunk_le_lastInFile hin
  have hstart := startChunk_toInt p hoff
  refine .inr ?_
  by_cases hsum : rd.start + rd.len ≤ 2 ^ 63
  · refine .inl ⟨hsum, Nat.le_of_not_lt fun hbeyond => ?_⟩
    -- the chunk of the last byte of the buffer is read
    have hend := endChunk_toInt p hoff hlen hsum
    have hends : p.endsInChunk rd = false := by
      by_cases hlt : rd.start + rd.len < 2 ^ 63
      · refine Bool.eq_false_iff.mpr fun htrue => ?_
        have := ((endsInChunk_iff hoff hlen hlt).mp htrue).2
        omega
      · exact endsInChunk_wrapped hoff (by omega)
    have hcauses : Causes p rd (p.endChunk rd) :=
      .of_required ⟨hadmitted, hends⟩ (Int64.le_iff_toInt_le.mpr (by omega)) (Int64.le_refl _)
    have hoffset := Int64.lt_iff_toInt_lt.mp (h.offset _ hcauses)
    have hmul := endChunk_mul_lt p hoff hlen
    rw [chunkStart_toInt (by omega) hmul, hend, ← Int.natCast_mul] at hoffset
    exact absurd ((mul_lt_size_iff hsize _).mp hoffset) (Nat.not_le.mpr hbeyond)
  · refine .inr ⟨by omega, (windowEnd_le_endChunk_iff hw hsize hoff hin (by omega)).mp
      (Int64.not_lt.mp fun hlt => ?_)⟩
    -- the chunk behind the wrapped end is read ahead
    have hends : p.endsInChunk rd = false := endsInChunk_wrapped hoff (by omega)
    have hwindow := windowEnd_le_file hsize rd
    have hlast := lastInFile_lt hsize
    have hmax : p.windowEnd rd < Int64.maxValue :=
      Int64.lt_iff_toInt_lt.mpr (by rw [maxValue_toInt]; omega)
    have hsucc := toInt_succ (Int64.le_of_lt hlt) hmax
    have hlt' := Int64.lt_iff_toInt_lt.mp hlt
    obtain ⟨r, started, hrun, hmem⟩ := CallRun.exists_readAhead
      ⟨hadmitted, hends⟩ (readAheadLimit_pos hw) (Int64.lt_iff_toInt_lt.mpr (by omega))
      (Int64.le_iff_toInt_le.mpr (by omega) : p.endChunk rd + 1 ≤ _)
    have hahead := (h.ahead r started _ _ hrun hmem).1
    have hfile : lastInFile p ≤ (rd.start + rd.len - 1) / p.chunk := by
      have := Int64.toInt_lt p.size
      exact Nat.div_le_div_right (by omega)
    omega

include hin in
theorem staysInside_of_endsInFile (h : EndsInFile p rd) : StaysInside p rd := by
  have hfirst := startChunk_nonneg p hoff
  have hlast := lastInFile_lt hsize
  have hwindow := windowEnd_le_file hsize rd
  have hreach := windowReach_le hw hoff
  have hle_reach := Int64.le_iff_toInt_le.mp (windowEnd_le_reach p rd)
  -- in both cases the required chunks are chunks of the file, and those ahead too
  have hfile : (p.endChunk rd).toInt ≤ lastInFile p ∧ (p.endChunk rd < p.windowEnd rd →
      (p.endChunk rd).toInt = ((rd.start + rd.len - 1) / p.chunk : Nat)) := by
    rcases h with hzero | ⟨hsum, hend⟩ | ⟨hsum, hend⟩
    · omega
    · have heq := endChunk_toInt p hoff hlen hsum
      exact ⟨by omega, fun _ => heq⟩
    · have hneg := endChunk_nonpos (p := p) hoff hsum
      have hend := (windowEnd_le_endChunk_iff hw hsize hoff hin hsum).mpr hend
      exact ⟨by omega, fun hlt => absurd hend (Int64.not_le.mpr hlt)⟩
  have hb := bounded_of_endChunk hw hsize hfile.1
  refine ⟨fun index hcauses => ?_, fun r started index state hrun hmem => ?_,
    fun r started hrun => ?_⟩
  · have hrange : 0 ≤ index.toInt ∧ index.toInt ≤ lastInFile p := by
      rcases (hcauses.range hb).2 with ⟨hlow, hhigh⟩ | ⟨hlow, hhigh⟩
      · have h1 := Int64.le_iff_toInt_le.mp hlow
        have h2 := Int64.le_iff_toInt_le.mp hhigh
        omega
      · have h1 := Int64.lt_iff_toInt_lt.mp hlow
        have h2 := Int64.le_iff_toInt_le.mp hhigh
        have h3 : 0 ≤ (p.endChunk rd).toInt := by
          rw [hfile.2 (Int64.lt_of_lt_of_le hlow hhigh)]
          exact Int.natCast_nonneg _
        omega
    obtain ⟨heq, hlt⟩ := chunkStart_lt_size hsize hrange.1 hrange.2
    rw [Int64.lt_iff_toInt_lt, heq]
    exact hlt
  · obtain ⟨_, hlow, hhigh⟩ := (hrun.pointOk hb).2 _ hmem
    have h1 := Int64.lt_iff_toInt_lt.mp hlow
    have h2 := Int64.le_iff_toInt_le.mp hhigh
    have h3 := hfile.2 (Int64.lt_of_lt_of_le hlow hhigh)
    exact ⟨by omega, by omega⟩
  · have hle := (hrun.pointOk hb).1.le_limit hb
    rw [readAheadLimit_toInt hw] at hle
    omega

end

end

/-- What a call of a prefetcher of a file of known size reads is in the file exactly if its
buffer ends in the file. -/
theorem staysInside_iff (size : Int64) (configs : List Config) (rd : Read) (hsize : 0 < size)
    (hvalid : (Prefetcher.new size configs).validateRead rd = none) :
    StaysInside (.new size configs) rd ↔ EndsInFile (.new size configs) rd := by
  have hw := new_window size configs
  have hpos : 0 < (Prefetcher.new size configs).size.toInt := pos_iff_toInt.mp hsize
  by_cases hlen : rd.len = 0
  · refine iff_of_true ?_ (.inl hlen)
    have hnot : ¬ Admitted (.new size configs) rd := fun h => h.2 hlen
    refine ⟨fun index h => absurd h (not_causes hnot index),
      fun r started index state hrun hmem => ?_,
      fun r started hrun => ?_⟩
    · rw [(hrun.of_not_admitted hnot).1] at hmem
      exact absurd hmem List.not_mem_nil
    · rw [(hrun.of_not_admitted hnot).1]
      exact Nat.zero_le _
  · have hoff := off_toInt_of_valid hvalid
    have hlen' := Nat.pos_of_ne_zero hlen
    have hin : (rd.start : Int) < (Prefetcher.new size configs).size.toInt :=
      ((validateRead_eq_none hoff hlen').mp hvalid).resolve_left (by omega)
    exact ⟨endsInFile_of_staysInside hw hpos hoff hin hlen' ⟨hvalid, hlen⟩,
      staysInside_of_endsInFile hw hpos hoff hin hlen'⟩

/-- Ten bytes at offset two. -/
def readTen : Read := ⟨10, 2, by decide⟩

/-- Six bytes of a file of eight, in chunks of four. -/
theorem staysInside_six : EndsInFile (.new 8 [configOf 4]) readSix ∧
    StaysInside (.new 8 [configOf 4]) readSix := by
  have hends : EndsInFile (.new 8 [configOf 4]) readSix := .inr (.inl (by decide))
  exact ⟨hends, (staysInside_iff 8 [configOf 4] readSix (by decide) (by decide)).mpr hends⟩

/-- Ten bytes at offset two of a file of six, in chunks of four: in some run of the call
alone the reader is asked for the third chunk, which would start at offset eight. -/
theorem readTen_beyond :
    (∃ s, Reach (Prefetcher.new 6 [configOf 4]).Step (AnswersBy fun _ => ⟨[], some .eof⟩)
        (start [.readAt readTen]) s ∧
      ∀ a, ∃ s', (Prefetcher.new 6 [configOf 4]).Step s (.answer 2 a) s') ∧
      Causes (.new 6 [configOf 4]) readTen 2 ∧
      ¬ (2 * (Prefetcher.new 6 [configOf 4]).config.chunkSize <
        (Prefetcher.new 6 [configOf 4]).size) ∧
      ¬ StaysInside (.new 6 [configOf 4]) readTen := by
  have hschedules : Schedules (.new 6 [configOf 4]) readTen :=
    ⟨⟨by decide, by decide⟩, by decide⟩
  have hcauses : Causes (.new 6 [configOf 4]) readTen 2 :=
    .of_required hschedules (by decide) (by decide)
  have hbeyond : ¬ (2 * (Prefetcher.new 6 [configOf 4]).config.chunkSize <
      (Prefetcher.new 6 [configOf 4]).size) := by decide
  exact ⟨asks_required _ hschedules (by decide) (by decide), hcauses, hbeyond,
    fun h => hbeyond (h.offset 2 hcauses)⟩

/-! ## Exact arithmetic -/

/-- No sum and no product of the call wraps around. -/
structure NoWrap (p : Prefetcher) (rd : Read) : Prop where
  readEnd : ∀ n ≤ rd.len, (rd.off + Int64.ofNat n).toInt = rd.off.toInt + n
  ordered : p.startChunk rd ≤ p.endChunk rd
  window : p.endsInChunk rd = false →
    (p.config.windowSize + p.config.chunkSize).toInt =
        p.config.windowSize.toInt + p.config.chunkSize.toInt ∧
      (p.startChunk rd + (if p.windowChunks < 1 then 1 else p.windowChunks)).toInt =
        (p.startChunk rd).toInt + (if p.windowChunks < 1 then 1 else p.windowChunks).toInt ∧
      p.startChunk rd ≤ p.windowEnd rd
  offsets : ∀ index, Causes p rd index →
    (index * p.config.chunkSize).toInt = index.toInt * p.config.chunkSize.toInt ∧
      0 ≤ (index * p.config.chunkSize).toInt

/-- An admitted read with a buffer computes without a wrap. -/
def ArithmeticInRange (p : Prefetcher) (rd : Read) : Prop := rd.len ≠ 0 → NoWrap p rd

/-- The window and, for a file of unknown size, its last chunk are below `2 ^ 63`. -/
def WindowInRange (p : Prefetcher) (rd : Read) : Prop :=
  p.window + p.chunk < 2 ^ 63 ∧ rd.start / p.chunk + p.windowCount < 2 ^ 63 ∧
    (0 < p.size ∨ lastInWindow p rd * p.chunk < 2 ^ 63)

/-- The buffer is empty, or it ends below `2 ^ 63` and the call either stops in its first
chunk or has a window that is in range. -/
def SumsInRange (p : Prefetcher) (rd : Read) : Prop :=
  rd.len = 0 ∨ (rd.start + rd.len < 2 ^ 63 ∧ (p.endsInChunk rd = true ∨ WindowInRange p rd))

section

variable {p : Prefetcher} {rd : Read} (hw : p.config.chunkSize ≤ p.config.windowSize)
  (hoff : rd.off.toInt = rd.start) (hlen : 0 < rd.len)

include hw hoff

theorem windowSum_toInt_iff (hsum : p.window + p.chunk < 2 ^ 63) :
    (p.startChunk rd + (if p.windowChunks < 1 then 1 else p.windowChunks)).toInt =
        (p.startChunk rd).toInt + (if p.windowChunks < 1 then 1 else p.windowChunks).toInt ↔
      rd.start / p.chunk + p.windowCount < 2 ^ 63 := by
  have hk : p.windowTaken = p.windowCount := if_pos (Nat.le_of_lt hsum)
  have hlt := Int64.toInt_lt (p.startChunk rd + (if p.windowChunks < 1 then 1 else p.windowChunks))
  rw [Int64.toInt_add, windowChunks_raised hw, hk, startChunk_toInt p hoff] at hlt ⊢
  generalize rd.start / p.chunk = first at hlt ⊢
  constructor
  · intro h
    omega
  · intro h
    exact bmod_small (by omega) (by omega)

include hlen

theorem inRange_of_noWrap (hadmitted : Admitted p rd) (h : NoWrap p rd) : SumsInRange p rd := by
  have hend : rd.start + rd.len < 2 ^ 63 := by
    have heq := h.readEnd rd.len (Nat.le_refl _)
    have hlt := Int64.toInt_lt (rd.off + Int64.ofNat rd.len)
    omega
  refine .inr ⟨hend, ?_⟩
  cases hends : p.endsInChunk rd with
  | true => exact .inl rfl
  | false =>
      obtain ⟨hwindow, hreach, _⟩ := h.window hends
      have hsum := (windowSum_exact_iff hw).mp hwindow
      have hfirst := (windowSum_toInt_iff hw hoff hsum).mp hreach
      refine .inr ⟨hsum, hfirst, Decidable.or_iff_not_imp_left.mpr fun hsize => ?_⟩
      -- the last chunk of the window may be read ahead
      have hlast : (p.windowEnd rd).toInt = lastInWindow p rd := by
        rw [windowEnd_eq, if_neg hsize]
        exact windowReach_toInt hw hoff (Nat.le_of_lt hsum) (Nat.le_of_lt hfirst)
      refine Nat.lt_of_not_le fun hlarge => ?_
      have hmul := endChunk_mul_lt p hoff hlen
      have hbehind : p.endChunk rd < p.windowEnd rd := by
        refine Int64.not_le.mp fun hle => ?_
        have hle' := Int64.le_iff_toInt_le.mp hle
        rw [hlast] at hle'
        have := Int.mul_le_mul_of_nonneg_right hle' (Int.natCast_nonneg p.chunk)
        rw [← Int.natCast_mul] at this
        omega
      have hcauses : Causes p rd (p.windowEnd rd) :=
        .of_readAhead ⟨hadmitted, hends⟩ (readAheadLimit_pos hw) hbehind (Int64.le_refl _)
      have hexact := (h.offsets _ hcauses).1
      have hlt := Int64.toInt_lt (p.windowEnd rd * p.config.chunkSize)
      rw [hexact, hlast, chunk_toInt, ← Int.natCast_mul] at hlt
      omega

/-- Then the loops of the call end before the largest index. -/
theorem bounded_of_inRange (hend : rd.start + rd.len < 2 ^ 63)
    (h : p.endsInChunk rd = true ∨ WindowInRange p rd) : Bounded p rd := by
  have hwindowEnd := Int64.le_iff_toInt_le.mp (windowEnd_le_reach p rd)
  refine ⟨Int64.lt_iff_toInt_lt.mpr ?_, Int64.lt_iff_toInt_lt.mpr ?_, ?_⟩
  · have := Nat.div_le_self (rd.start + rd.len - 1) p.chunk
    rw [endChunk_toInt p hoff hlen (Nat.le_of_lt hend), maxValue_toInt]
    omega
  · rw [maxValue_toInt]
    rcases h with hends | hr
    · have hsize := ((endsInChunk_iff hoff hlen hend).mp hends).1.1
      have := windowEnd_le_file hsize rd
      have := lastInFile_lt hsize
      omega
    · have hreach := windowReach_toInt hw hoff (Nat.le_of_lt hr.1) (Nat.le_of_lt hr.2.1)
      have hlt := hr.2.1
      unfold lastInWindow at hreach
      omega
  · rw [readAheadLimit_toInt hw]
    exact Int.natCast_nonneg _

theorem startChunk_le_windowEnd (hvalid : p.validateRead rd = none) (hr : WindowInRange p rd) :
    p.startChunk rd ≤ p.windowEnd rd := by
  have hfirst := startChunk_toInt p hoff
  have hfrom : p.startChunk rd ≤ p.windowReach rd := by
    have hcount := windowCount_pos hw
    rw [Int64.le_iff_toInt_le, hfirst,
      windowReach_toInt hw hoff (Nat.le_of_lt hr.1) (Nat.le_of_lt hr.2.1)]
    unfold lastInWindow
    omega
  rw [windowEnd_eq]
  split
  case isTrue hsize =>
    split
    case isTrue =>
      have hsize' := pos_iff_toInt.mp hsize
      have hin : (rd.start : Int) < p.size.toInt :=
        ((validateRead_eq_none hoff hlen).mp hvalid).resolve_left (by omega)
      rw [Int64.le_iff_toInt_le, hfirst, maxChunk_toInt hsize']
      exact Int.ofNat_le.mpr (startChunk_le_lastInFile hin)
    case isFalse => exact hfrom
  case isFalse => exact hfrom

/-- Every chunk from the first to the end of the read or of the window starts below `2 ^ 63`. -/
theorem chunkStart_inRange (hend : rd.start + rd.len < 2 ^ 63) (hr : WindowInRange p rd)
    {index : Int64} (hrange : (p.startChunk rd ≤ index ∧ index ≤ p.endChunk rd) ∨
      (p.endChunk rd < index ∧ index ≤ p.windowEnd rd)) :
    0 ≤ index.toInt ∧ index.toInt * p.chunk < 2 ^ 63 := by
  have hlast := endChunk_toInt p hoff hlen (Nat.le_of_lt hend)
  rcases hrange with ⟨hlow, hhigh⟩ | ⟨hlow, hhigh⟩
  · have hlow' := Int64.le_iff_toInt_le.mp hlow
    have hhigh' := Int64.le_iff_toInt_le.mp hhigh
    have hnonneg := startChunk_nonneg p hoff
    exact ⟨by omega, Int.lt_of_le_of_lt
      (Int.mul_le_mul_of_nonneg_right hhigh' (Int.natCast_nonneg _)) (endChunk_mul_lt p hoff hlen)⟩
  · have hlow' := Int64.lt_iff_toInt_lt.mp hlow
    have hhigh' := Int64.le_iff_toInt_le.mp hhigh
    have hnonneg : 0 ≤ index.toInt := by
      have : 0 ≤ (p.endChunk rd).toInt := by
        rw [hlast]
        exact Int.natCast_nonneg _
      omega
    refine ⟨hnonneg, ?_⟩
    rcases hr.2.2 with hsize | hsmall
    · have hsize' := pos_iff_toInt.mp hsize
      have hfile := windowEnd_le_file hsize' rd
      have hin := (chunkStart_lt_size hsize' hnonneg (by omega)).2
      have := Int64.toInt_lt p.size
      omega
    · have hle : index.toInt ≤ lastInWindow p rd := by
        have hreach := windowReach_toInt hw hoff (Nat.le_of_lt hr.1) (Nat.le_of_lt hr.2.1)
        have := Int64.le_iff_toInt_le.mp (windowEnd_le_reach p rd)
        omega
      have hmul := Int.mul_le_mul_of_nonneg_right hle (Int.natCast_nonneg p.chunk)
      rw [← Int.natCast_mul] at hmul
      omega

theorem noWrap_of_inRange (hvalid : p.validateRead rd = none)
    (hend : rd.start + rd.len < 2 ^ 63) (h : p.endsInChunk rd = true ∨ WindowInRange p rd) :
    NoWrap p rd := by
  have hordered : rd.start / p.chunk ≤ (rd.start + rd.len - 1) / p.chunk :=
    Nat.div_le_div_right (by omega)
  -- the end of the window, where the call computes it
  have hwindow : p.endsInChunk rd = false → WindowInRange p rd := fun hends =>
    h.resolve_left (Bool.eq_false_iff.mp hends)
  refine ⟨fun n hn => ?_, Int64.le_iff_toInt_le.mpr ?_, fun hends => ?_, fun index hcauses => ?_⟩
  · rw [Int64.toInt_add, hoff, Int64.toInt_ofNat_of_lt (by omega), bmod_small (by omega) (by omega)]
  · rw [startChunk_toInt p hoff, endChunk_toInt p hoff hlen (Nat.le_of_lt hend)]
    exact Int.ofNat_le.mpr hordered
  · have hr := hwindow hends
    exact ⟨(windowSum_exact_iff hw).mpr hr.1, (windowSum_toInt_iff hw hoff hr.1).mpr hr.2.1,
      startChunk_le_windowEnd hw hoff hlen hvalid hr⟩
  · obtain ⟨⟨_, hends⟩, hrange⟩ := hcauses.range (bounded_of_inRange hw hoff hlen hend h)
    obtain ⟨hnonneg, hlt⟩ := chunkStart_inRange hw hoff hlen hend (hwindow hends) hrange
    rw [chunkStart_toInt hnonneg hlt, chunk_toInt]
    exact ⟨rfl, Int.mul_nonneg hnonneg (Int.natCast_nonneg _)⟩

end

/-- For which reads the arithmetic is exact. -/
theorem arithmeticInRange_iff (size : Int64) (configs : List Config) (rd : Read)
    (hvalid : (Prefetcher.new size configs).validateRead rd = none) :
    ArithmeticInRange (.new size configs) rd ↔ SumsInRange (.new size configs) rd := by
  have hw := new_window size configs
  by_cases hlen : rd.len = 0
  · exact iff_of_true (fun h => absurd hlen h) (.inl hlen)
  · have hoff := off_toInt_of_valid hvalid
    have hlen' := Nat.pos_of_ne_zero hlen
    constructor
    · exact fun h => inRange_of_noWrap hw hoff hlen' ⟨hvalid, hlen⟩ (h hlen)
    · intro h _
      obtain ⟨hend, hwindow⟩ := h.resolve_left hlen
      exact noWrap_of_inRange hw hoff hlen' hvalid hend hwindow

/-- Six bytes at offset two are in range. -/
theorem arithmeticInRange_six : SumsInRange (.new 8 [configOf 4]) readSix ∧
    ArithmeticInRange (.new 8 [configOf 4]) readSix := by
  have hrange : SumsInRange (.new 8 [configOf 4]) readSix :=
    .inr ⟨by decide, .inr ⟨by decide, by decide, by decide⟩⟩
  exact ⟨hrange, (arithmeticInRange_iff 8 [configOf 4] readSix (by decide)).mpr hrange⟩

/-- Two bytes at the greatest offset. -/
def readTop : Read := ⟨2, Int64.maxValue, by decide⟩

/-- Two bytes at the greatest offset of a file of unknown size are admitted, and their end
wraps around to a chunk far before the first. -/
theorem readTop_wraps :
    (Prefetcher.new (-1) [configOf 4]).validateRead readTop = none ∧
      (Prefetcher.new (-1) [configOf 4]).endChunk readTop <
        (Prefetcher.new (-1) [configOf 4]).startChunk readTop ∧
      ¬ ArithmeticInRange (.new (-1) [configOf 4]) readTop := by
  have hbefore : (Prefetcher.new (-1) [configOf 4]).endChunk readTop <
      (Prefetcher.new (-1) [configOf 4]).startChunk readTop := by decide
  exact ⟨by decide, hbefore, fun h => Int64.not_le.mpr hbefore (h (by decide)).ordered⟩

end BuilderShim.Prefetch
