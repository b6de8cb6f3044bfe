/-
  Prefetch/ShortReads.lean --- short results, and readers that stop short.

  First, when a result shorter than the buffer comes with an error, as the contract
  of `io.ReaderAt` asks for, over any reader that obeys the contract itself.  Then
  which bytes are returned over a reader that may answer with less than it was asked
  for and no error, as `content.readerAt` does.
-/
import BuilderShim.Prefetch.ReadAt

set_option autoImplicit false

namespace BuilderShim.Prefetch

open BuilderShim.Foundation

/-! ## The contract of `io.ReaderAt` -/

/-- A reader of `data` that obeys the contract: what it reads is right, it gives an error
when it reads less than asked for, and `io.EOF` only at the end.  Nothing is asked of it
at a negative offset. -/
def ContractReader (data : Bytes) : Reader := fun off k a =>
  0 ≤ off.toInt → a.data <+: slice data off.toInt.toNat k ∧ (a.data.length < k → a.err ≠ none) ∧
    (a.err = some .eof → data.length ≤ off.toInt.toNat + a.data.length)

/-- In every run, with whatever other calls, a result of the read that is shorter than the
buffer comes with an error. -/
def ShortHasErr (p : Prefetcher) (data : Bytes) (rd : Read) : Prop :=
  ∀ (calls : List Call) (s : Tasks Shared Task),
    Reach p.Step (fun _ => ReadsFrom p (ContractReader data)) (start calls) s →
      ∀ got err, Task.readAt rd (.returned got err) ∈ s.tasks → got.length < rd.len → err ≠ none

/-- When a short result of the read is told, by its arguments, the declared size, the
chunk size and the length of the data. -/
def ShortTold (p : Prefetcher) (rd : Read) (length : Nat) : Prop :=
  rd.off.toInt < 0 ∨ rd.len = 0 ∨ p.size.toInt = 0 ∨
    (0 < p.size.toInt ∧ p.size.toInt ≤ rd.off.toInt) ∨
    (rd.start + rd.len < 2 ^ 63 ∧
      (rd.start + rd.len ≤ length ∨ (0 < p.size.toInt ∧ p.size.toInt ≤ length) ∨
        (0 < p.size.toInt ∧ p.size.toInt < (rd.start + rd.len : Nat)) ∧
          rd.start / p.chunk = (rd.start + rd.len - 1) / p.chunk)) ∨
    (rd.start + rd.len = 2 ^ 63 ∧
      (p.chunk = 1 ∨ rd.start + rd.len ≤ length ∨
        (0 < p.size.toInt ∧ p.size.toInt ≤ length))) ∨
    (2 ^ 63 < rd.start + rd.len ∧ 2 ^ 64 - (rd.start + rd.len - 1) < p.chunk ∧
      (0 < p.size.toInt ∧ p.size.toInt ≤ length) ∧ p.size.toInt ≤ p.chunk)

section

variable {p : Prefetcher} {rd : Read} {data : Bytes}

/-- What a reader that obeys the contract reads without a failure is all there is. -/
theorem contract_data {off : Int64} {k : Nat} {a : Answer} (hoff : 0 ≤ off.toInt)
    (h : ContractReader data off k a) (hok : a.ok = true) :
    a.data = slice data off.toInt.toNat k := by
  obtain ⟨hpre, hshort, heof⟩ := h hoff
  refine hpre.eq_of_length_le ?_
  have hbound := length_slice data off.toInt.toNat k
  simp only [Answer.ok, Bool.or_eq_true, decide_eq_true_eq] at hok
  rcases hok with hnone | hend
  · have : ¬ a.data.length < k := fun hlt => hshort hlt hnone
    omega
  · have := heof hend
    omega

theorem contract_admissible {e : Event} (h : ReadsFrom p (ContractReader data) e) :
    Admissible (Exact p data) True e := by
  cases e with
  | tau => trivial
  | answer index a =>
      refine ⟨fun hok hnonneg hlt => ?_, fun _ => trivial⟩
      have hmul : 0 ≤ index.toInt * p.chunk := Int.mul_nonneg hnonneg (by omega)
      have hoff : 0 ≤ (index * p.config.chunkSize).toInt := by
        rw [Int64.toInt_mul, chunk_toInt, bmod_small (by omega) hlt]
        exact hmul
      rw [contract_data hoff h hok, offset_toInt hnonneg hlt]
  | expire => trivial

theorem sourceAnswer_contract (index : Int64) :
    ReadsFrom p (ContractReader data) (.answer index (sourceAnswer p data index)) := by
  intro _
  have hbound := length_slice data (index * p.config.chunkSize).toInt.toNat p.chunk
  refine ⟨List.prefix_refl _, fun hlt => ?_, fun heof => ?_⟩
  · change (slice data _ p.chunk).length < p.chunk at hlt
    unfold sourceAnswer
    dsimp only
    rw [if_pos hlt]
    simp
  · change data.length ≤ _ + (slice data _ p.chunk).length
    unfold sourceAnswer at heof
    dsimp only at heof
    split at heof
    · omega
    · cases heof

/-- A short result is told in every run if and only if the read stalls or its result over
the source is told. -/
theorem shortHasErr_iff : ShortHasErr p data rd ↔
    (¬ Stalls p rd → (p.result rd data).1.length < rd.len → (p.result rd data).2 ≠ none) := by
  constructor
  · intro h hstall
    obtain ⟨s, hrun, hmem⟩ := exists_run data hstall
    refine h _ s (hrun.mono fun s e he => ?_) _ _ hmem
    rcases he with rfl | ⟨index, rfl⟩
    · trivial
    · exact sourceAnswer_contract index
  · intro h calls s hrun got err hmem hlt
    have hout : Outcome p (Exact p data) True rd got err :=
      outcome_of_reach (fun _ _ => contract_admissible) (fun _ => trivial) hrun hmem
    rcases hout.exact_or_err with ⟨heq, hstall⟩ | herr
    · have hgot : got = (p.result rd data).1 := congrArg Prod.fst heq
      have herr : err = (p.result rd data).2 := congrArg Prod.snd heq
      rw [herr]
      exact h hstall (hgot ▸ hlt)
    · exact herr

theorem finalErr_ne_none (hoff : rd.off.toInt = rd.start) {got : Bytes}
    (hsum : rd.start + got.length < 2 ^ 63) :
    p.finalErr rd got ≠ none ↔
      0 < p.size.toInt ∧ p.size.toInt ≤ (rd.start + got.length : Nat) := by
  rw [finalErr_eq hoff hsum]
  by_cases h : 0 < p.size.toInt ∧ p.size.toInt ≤ (rd.start + got.length : Nat)
  · rw [if_pos h]
    exact iff_of_true (by simp) h
  · rw [if_neg h]
    exact iff_of_false (by simp) h

/-- The result of a read that is refused. -/
theorem result_refused (h : p.validateRead rd ≠ none) : (p.result rd data).2 ≠ none := by
  cases hv : p.validateRead rd with
  | none => exact absurd hv h
  | some e => simp [Prefetcher.result, hv]

/-- The read is looked at further, and does not end above `2 ^ 63`. -/
theorem told_unwrapped_iff (hoff : rd.off.toInt = rd.start) (hlen : 0 < rd.len)
    (hvalid : p.validateRead rd = none) (hends : p.endsInChunk rd = false)
    (hsum : rd.start + rd.len ≤ 2 ^ 63) :
    ((p.result rd data).1.length < rd.len → (p.result rd data).2 ≠ none) ↔
      rd.start + rd.len ≤ data.length ∨ (0 < p.size.toInt ∧ p.size.toInt ≤ data.length) := by
  have hin := (validateRead_eq_none hoff hlen).mp hvalid
  rw [result_admitted hlen hvalid hends, span_eq hoff hlen hsum]
  have hlength := length_slice data rd.start rd.len
  by_cases hshort : (slice data rd.start rd.len).length < rd.len
  · rw [finalErr_ne_none hoff (by omega)]
    simp only [hshort, true_implies]
    omega
  · simp only [hshort, false_implies, true_iff]
    omega

theorem told_wrapped_iff (hoff : rd.off.toInt = rd.start) (hlen : 0 < rd.len)
    (hvalid : p.validateRead rd = none) (hsum : 2 ^ 63 < rd.start + rd.len) :
    ((p.result rd data).1.length < rd.len → (p.result rd data).2 ≠ none) ↔
      2 ^ 64 - (rd.start + rd.len - 1) < p.chunk ∧
        (0 < p.size.toInt ∧ p.size.toInt ≤ data.length) ∧ p.size.toInt ≤ p.chunk := by
  have hin := (validateRead_eq_none hoff hlen).mp hvalid
  have hchunk := chunk_lt p
  have hstart := start_lt rd
  rw [result_admitted hlen hvalid (endsInChunk_wrapped hoff (by omega)), span_wrapped hoff hsum]
  have hlength := length_slice data rd.start
    (if 2 ^ 64 - (rd.start + rd.len - 1) < p.chunk then p.chunk - rd.start else 0)
  generalize slice data rd.start
    (if 2 ^ 64 - (rd.start + rd.len - 1) < p.chunk then p.chunk - rd.start else 0) = got at *
  by_cases hm : 2 ^ 64 - (rd.start + rd.len - 1) < p.chunk
  · rw [if_pos hm] at hlength
    have hshort : got.length < rd.len := by omega
    rw [finalErr_ne_none hoff (by omega)]
    simp only [hshort, true_implies, hm, true_and]
    omega
  · rw [if_neg hm] at hlength
    have hshort : got.length < rd.len := by omega
    rw [finalErr_ne_none hoff (by omega)]
    simp only [hshort, true_implies, hm, false_and, iff_false]
    omega

/-- A result is told or not by the arguments alone. -/
theorem shortTold_iff :
    (¬ Stalls p rd → (p.result rd data).1.length < rd.len → (p.result rd data).2 ≠ none) ↔
      ShortTold p rd data.length := by
  unfold ShortTold
  by_cases hneg : rd.off.toInt < 0
  · have hrefused : p.validateRead rd ≠ none := by
      have hneg' : rd.off < 0 := Int64.lt_iff_toInt_lt.mpr (by simpa using hneg)
      simp [Prefetcher.validateRead, hneg']
    exact iff_of_true (fun _ _ => result_refused hrefused) (.inl hneg)
  have hoff : rd.off.toInt = rd.start := by
    unfold Read.start
    omega
  by_cases hzero : rd.len = 0
  · exact iff_of_true (fun _ h => by omega) (.inr (.inl hzero))
  have hlen : 0 < rd.len := Nat.pos_of_ne_zero hzero
  have hvalid := validateRead_eq_none (p := p) hoff hlen
  by_cases hadm : p.size.toInt < 0 ∨ rd.start < p.size.toInt
  · have hv := hvalid.mpr hadm
    have hstalls := stalls_iff hoff hlen hv
    have h1 : ¬ p.size.toInt = 0 := by omega
    have h2 : ¬ (0 < p.size.toInt ∧ p.size.toInt ≤ rd.off.toInt) := by omega
    rcases Nat.lt_trichotomy (rd.start + rd.len) (2 ^ 63) with hsum | hsum | hsum
    · have hs : ¬ Stalls p rd := not_stalls hoff hlen p (by omega)
      have h3 : ¬ rd.start + rd.len = 2 ^ 63 := by omega
      have h4 : ¬ 2 ^ 63 < rd.start + rd.len := by omega
      simp only [hneg, hzero, h1, h2, hs, hsum, h3, h4, not_false_eq_true, true_implies, false_or,
        true_and, false_and, or_false]
      cases hends : p.endsInChunk rd with
      | true =>
          have hsame := (endsInChunk_iff hoff hlen hsum).mp hends
          refine iff_of_true (fun _ => ?_) (.inr (.inr hsame))
          simp [Prefetcher.result, hv, hzero, hends]
      | false =>
          have hsame : ¬ _ := fun h => by
            rw [(endsInChunk_iff (p := p) hoff hlen hsum).mpr h] at hends
            cases hends
          rw [told_unwrapped_iff hoff hlen hv hends (Nat.le_of_lt hsum)]
          simp only [hsame, or_false]
    · have h3 : ¬ rd.start + rd.len < 2 ^ 63 := by omega
      have h4 : ¬ 2 ^ 63 < rd.start + rd.len := by omega
      have hlimit : (rd.start + rd.len = 2 ^ 63) = True := eq_true hsum
      rw [told_unwrapped_iff hoff hlen hv (endsInChunk_wrapped hoff (by omega)) (by omega), hstalls]
      simp only [hneg, hzero, h1, h2, h3, h4, hlimit, true_and, false_and, false_or, or_false]
      by_cases hone : p.chunk = 1
      · simp only [hone, not_true_eq_false, false_implies, true_or]
      · simp only [hone, not_false_eq_true, true_implies, false_or]
    · have hs : ¬ Stalls p rd := not_stalls hoff hlen p (by omega)
      have h3 : ¬ rd.start + rd.len = 2 ^ 63 := by omega
      have h4 : ¬ rd.start + rd.len < 2 ^ 63 := by omega
      rw [told_wrapped_iff hoff hlen hv hsum]
      simp only [hneg, hzero, h1, h2, hs, hsum, h3, h4, not_false_eq_true, true_implies, false_or,
        true_and, false_and]
  · have hrefused : p.validateRead rd ≠ none := fun h => hadm (hvalid.mp h)
    refine iff_of_true (fun _ _ => result_refused hrefused) (.inr (.inr ?_))
    by_cases hsize : p.size.toInt = 0
    · exact .inl hsize
    · exact .inr (.inl ⟨by omega, by omega⟩)

end

/-- A result shorter than the buffer comes with an error, over any reader that obeys the
contract, if and only if the arguments tell so. -/
theorem readAt_short_iff (data : Bytes) (size : Int64) (configs : List Config) (rd : Read) :
    ShortHasErr (.new size configs) data rd ↔ ShortTold (.new size configs) rd data.length := by
  rw [shortHasErr_iff]
  exact shortTold_iff

/-- Eight bytes at offset zero. -/
def readEight : Read := ⟨8, 0, by decide⟩

/-- Of two bytes whose number is not known, eight are asked for: two are returned and no
error. -/
theorem readAt_short_unknown : ¬ ShortHasErr (.new (-1) [configOf 4]) [7, 9] readEight ∧
    Returns (.new (-1) [configOf 4]) [7, 9] readEight [7, 9] none := by
  have hs : ¬ Stalls (.new (-1) [configOf 4]) readEight :=
    not_stalls (by decide) (by decide) _ (by decide)
  refine ⟨fun h => ?_, returns_iff.mpr ⟨by decide, hs⟩⟩
  exact absurd (shortHasErr_iff.mp h hs) (by decide)

/-! ## Readers that stop short -/

/-- A reader of `data` that answers with some bytes as long as there are any, possibly
fewer than asked for and possibly with no error, and with `io.EOF` after that. -/
def PartialReader (data : Bytes) : Reader := fun off k a =>
  (off.toInt.toNat < data.length → a.data ≠ [] ∧ a.data <+: slice data off.toInt.toNat k) ∧
  (data.length ≤ off.toInt.toNat → a = ⟨[], some .eof⟩)

/-- The answer is complete if data follow behind the chunk. -/
def FullBeforeEnd (data : Bytes) : Reader := fun off k a =>
  off.toInt.toNat + k < data.length → a.data.length = k

/-- The chunk holds the beginning of the bytes at its place, and all of them if data
follow behind it. -/
def Near (p : Prefetcher) (data : Bytes) (index : Int64) (bytes : Bytes) : Prop :=
  0 ≤ index.toInt → index.toInt * p.chunk < 2 ^ 63 →
    bytes <+: slice data (index.toInt.toNat * p.chunk) p.chunk ∧
      ((index.toInt.toNat + 1) * p.chunk < data.length →
        bytes = slice data (index.toInt.toNat * p.chunk) p.chunk)

section

variable {p : Prefetcher} {rd : Read} {data : Bytes}

theorem slice_self_length (data : Bytes) (off n : Nat) :
    slice data off n = slice data off (slice data off n).length := by
  rw [length_slice]
  rcases Nat.le_total n (data.length - off) with h | h
  · rw [Nat.min_eq_left h]
  · exact slice_eq_of_le (by omega) (by omega)

theorem eq_slice_of_isPrefix {bytes : Bytes} {off n : Nat} (h : bytes <+: slice data off n) :
    bytes = slice data off bytes.length := by
  have hlen := h.length_le
  rw [length_slice] at hlen
  conv_lhs => rw [List.prefix_iff_eq_take.mp h, take_slice]
  congr 1
  omega

theorem partial_admissible {e : Event}
    (h : ReadsFrom p (PartialReader data) e ∧ ReadsFrom p (FullBeforeEnd data) e) :
    Admissible (Near p data) True e := by
  cases e with
  | tau => trivial
  | answer index a =>
      refine ⟨fun _ hnonneg hlt => ?_, fun _ => trivial⟩
      obtain ⟨⟨hin, hout⟩, hfull⟩ := h
      have hfull : (index * p.config.chunkSize).toInt.toNat + p.chunk < data.length →
          a.data.length = p.chunk := hfull
      rw [offset_toInt hnonneg hlt] at hin hout hfull
      have hsucc : (index.toInt.toNat + 1) * p.chunk = index.toInt.toNat * p.chunk + p.chunk :=
        Nat.succ_mul _ _
      by_cases hend : index.toInt.toNat * p.chunk < data.length
      · obtain ⟨_, hpre⟩ := hin hend
        refine ⟨hpre, fun hmore => hpre.eq_of_length_le ?_⟩
        rw [hfull (by omega), length_slice]
        omega
      · rw [hout (Nat.not_lt.mp hend)]
        exact ⟨List.nil_prefix, fun hmore => by omega⟩
  | expire => trivial

/-- One round of `copyChunks` over the beginning of a chunk, from a buffer filled up to it. -/
theorem copyChunk_near (hoff : rd.off.toInt = rd.start) {index : Int64} {i : Nat}
    (hindex : index.toInt = i) (hle : rd.start / p.chunk ≤ i) {got got' bytes : Bytes}
    (hgot : got = slice data rd.start (min rd.len (i * p.chunk - rd.start)))
    (hlen : got.length < rd.len) (hb : bytes <+: slice data (i * p.chunk) p.chunk)
    (hcopy : p.copyChunk rd index got bytes = some got') :
    got' = slice data rd.start got'.length := by
  have hoffset := chunkOffset_eq (p := p) hoff hindex hle
  have hbytes := hb.length_le
  rw [length_slice] at hbytes
  unfold Prefetcher.copyChunk at hcopy
  simp only [hoffset] at hcopy
  split at hcopy
  · cases hcopy
  · rename_i hlong
    have hgotlen : got.length = i * p.chunk - rd.start := by
      rw [hgot, length_slice] at hlen ⊢
      omega
    have hmin : min rd.len (i * p.chunk - rd.start) = i * p.chunk - rd.start := by
      rw [hgot, length_slice] at hgotlen
      omega
    rw [hmin] at hgot
    have hplace : i * p.chunk + (rd.start - i * p.chunk) =
        rd.start + (i * p.chunk - rd.start) := by omega
    rw [← Option.some.inj hcopy, eq_slice_of_isPrefix hb, drop_slice, take_slice, hplace, hgot,
      ← slice_add]
    exact slice_self_length data rd.start _

/-- Over such chunks the buffer holds bytes of the source, and all of them up to the current
chunk as long as there are more. -/
theorem Copied.near {index : Int64} {got : Bytes} (h : Copied p (Near p data) rd index got) :
    got = slice data rd.start got.length ∧
      (index.toInt.toNat * p.chunk < data.length →
        got = slice data rd.start (min rd.len (index.toInt.toNat * p.chunk - rd.start))) := by
  induction h with
  | start hgo =>
      have hle : rd.start / p.chunk * p.chunk ≤ rd.start := Nat.div_mul_le_self _ _
      rw [startChunk_toInt p hgo.off_toInt, Int.toNat_natCast, Nat.sub_eq_zero_of_le hle]
      simp [slice]
  | @next index got got' bytes h hi hlen hgood hcopy ih =>
      obtain ⟨hnat, hle⟩ := h.index_nat
      have hoff := h.proceeds.off_toInt
      have hsucc := toInt_succ hi h.proceeds.max
      have hplace : index.toInt * p.chunk < 2 ^ 63 := by
        have hend := endChunk_mul_lt p hoff (Nat.pos_of_ne_zero h.proceeds.len)
        have hmul : index.toInt * p.chunk ≤ (p.endChunk rd).toInt * p.chunk :=
          Int.mul_le_mul_of_nonneg_right (Int64.le_iff_toInt_le.mp hi) (by omega)
        omega
      obtain ⟨hpre, hfull⟩ := hgood (by omega) hplace
      have hto : (index + 1).toInt.toNat = index.toInt.toNat + 1 := by omega
      rw [hto]
      by_cases hend : index.toInt.toNat * p.chunk < data.length
      · refine ⟨copyChunk_near hoff hnat hle (ih.2 hend) hlen hpre hcopy, fun hmore => ?_⟩
        rw [hfull hmore] at hcopy
        rcases copyChunk_exact hoff hnat hle (ih.2 hend) hlen with ⟨hnone, _⟩ | hsome
        · rw [hnone] at hcopy
          cases hcopy
        · rw [hsome] at hcopy
          exact (Option.some.inj hcopy).symm
      · -- Beyond the end a chunk is empty, and the loop ends.
        have hnil : bytes = [] := by
          have hz := hpre.length_le
          rw [length_slice] at hz
          exact List.length_eq_zero_iff.mp (by omega)
        rw [hnil] at hcopy
        simp [Prefetcher.copyChunk] at hcopy

/-- Whatever else happens, the bytes in the buffer are those of the source. -/
theorem Outcome.near {faults : Prop} {got : Bytes} {err : Option Err}
    (h : Outcome p (Near p data) faults rd got err) :
    got = slice data rd.start got.length := by
  cases h with
  | closed _ | refused _ | empty _ _ | ends _ _ _ => simp [slice]
  | full hc _ | short hc _ _ _ _ | failed _ hc => exact hc.near.1

end

/-- Over a reader that may stop short, a call returns bytes of the source, in every run in
which no answer of the reader is short of a chunk that data follow. -/
theorem readAt_partialReader (data : Bytes) (size : Int64) (configs : List Config)
    (calls : List Call)
    (s : Tasks Shared Task) (rd : Read) (got : Bytes) (err : Option Err)
    (hrun : Reach (Prefetcher.new size configs).Step
      (fun _ e => ReadsFrom (.new size configs) (PartialReader data) e ∧
        ReadsFrom (.new size configs) (FullBeforeEnd data) e) (start calls) s)
    (hmem : Task.readAt rd (.returned got err) ∈ s.tasks) :
    got = slice data rd.start got.length := by
  have hout : Outcome (.new size configs) (Near (.new size configs) data) True rd got err :=
    outcome_of_reach (fun _ _ => partial_admissible) (fun _ => trivial) hrun hmem
  exact hout.near

/-- The reader that answers at `off` with `count off` bytes and no error, by the offset. -/
def stops (data : Bytes) (count : Nat → Nat) (off : Nat) : Answer :=
  if off < data.length then ⟨slice data off (count off), none⟩ else ⟨[], some .eof⟩

theorem stops_ok (data : Bytes) (count : Nat → Nat) (off : Nat) :
    (stops data count off).ok = true := by
  unfold stops
  split
  · rfl
  · rfl

theorem stops_partialReader {data : Bytes} {count : Nat → Nat} {k : Nat} {off : Int64}
    (hpos : 0 < count off.toInt.toNat) (hle : count off.toInt.toNat ≤ k) :
    PartialReader data off k (stops data count off.toInt.toNat) := by
  unfold PartialReader stops
  generalize off.toInt.toNat = n at hpos hle
  refine ⟨fun hlt => ?_, fun hge => if_neg (Nat.not_lt.mpr hge)⟩
  rw [if_pos hlt]
  refine ⟨fun hnil => ?_, ?_⟩
  · have hz := congrArg List.length hnil
    rw [length_slice, List.length_nil] at hz
    omega
  · rw [← Nat.min_eq_left hle, ← take_slice]
    exact List.take_prefix _ _

theorem stops_fullBeforeEnd {data : Bytes} {count : Nat → Nat} {k : Nat} {off : Int64}
    (hcount : off.toInt.toNat + k < data.length → count off.toInt.toNat = k) :
    FullBeforeEnd data off k (stops data count off.toInt.toNat) := by
  unfold FullBeforeEnd stops
  generalize off.toInt.toNat = n at hcount
  intro hmore
  rw [if_pos (by omega), length_slice, hcount hmore]
  omega

/-- What `ReadAt` can return over the chunks of such a reader is returned in some run. -/
theorem stops_realised {p : Prefetcher} {rd : Read} {data : Bytes} {count : Nat → Nat}
    {got : Bytes} {err : Option Err} (hpos : ∀ off, 0 < count off)
    (hle : ∀ off, count off ≤ p.chunk)
    (h : Outcome p
      (fun index bytes =>
        bytes = (stops data count (index * p.config.chunkSize).toInt.toNat).data)
      False rd got err) :
    ∃ s, Reach p.Step
        (fun _ e => ReadsFrom p
          (fun off k a => PartialReader data off k a ∧ a = stops data count off.toInt.toNat) e)
        (start [.readAt rd]) s ∧
      Task.readAt rd (.returned got err) ∈ s.tasks := by
  obtain ⟨s, hrun, hmem⟩ := outcome_realised (fun _ => stops_ok _ _ _) h
  refine ⟨s, hrun.mono fun _ e he => ?_, hmem⟩
  rcases he with rfl | ⟨index, rfl⟩
  · trivial
  · exact ⟨stops_partialReader (hpos _) (hle _), rfl⟩

/-- The bytes zero to seven. -/
def eight : Bytes := [0, 1, 2, 3, 4, 5, 6, 7]

/-- Two bytes are given at `place` and four elsewhere. -/
def stopsIn (place off : Nat) : Nat := if off = place then 2 else 4

theorem stopsIn_pos (place off : Nat) : 0 < stopsIn place off := by
  unfold stopsIn
  split
  · decide
  · decide

theorem stopsIn_le (place off : Nat) : stopsIn place off ≤ 4 := by
  unfold stopsIn
  split
  · decide
  · decide

/-- The last chunk is short: the result is the beginning of the source. -/
theorem readAt_partial_last :
    ∃ s, Reach (Prefetcher.new 8 [configOf 4]).Step
        (fun _ e => ReadsFrom (.new 8 [configOf 4]) (PartialReader eight) e ∧
          ReadsFrom (.new 8 [configOf 4]) (FullBeforeEnd eight) e)
        (start [.readAt readEight]) s ∧
      Task.readAt readEight (.returned [0, 1, 2, 3, 4, 5] none) ∈ s.tasks ∧
      [0, 1, 2, 3, 4, 5] = slice eight readEight.start 6 := by
  let p := Prefetcher.new 8 [configOf 4]
  let Good := fun (index : Int64) bytes =>
    bytes = (stops eight (stopsIn 4) (index * p.config.chunkSize).toInt.toNat).data
  have hstart : p.startChunk readEight = 0 := by decide
  have h₀ : Copied p Good readEight 0 [] :=
    hstart ▸ .start ⟨by decide, by decide, by decide, by decide⟩
  have h₁ : Copied p Good readEight (0 + 1) [0, 1, 2, 3] :=
    .next h₀ (by decide) (by decide) rfl (by decide)
  have h₂ : Copied p Good readEight (0 + 1 + 1) [0, 1, 2, 3, 4, 5] :=
    .next h₁ (by decide) (by decide) rfl (by decide)
  obtain ⟨s, hrun, hmem⟩ :=
    stops_realised (p := p) (stopsIn_pos 4) (stopsIn_le 4) (Outcome.full h₂ (by decide))
  have hfull : Reach p.Step (fun _ e => ReadsFrom p (PartialReader eight) e ∧
      ReadsFrom p (FullBeforeEnd eight) e) (start [.readAt readEight]) s := by
    refine hrun.mono fun _ e he => ?_
    cases e with
    | tau | expire => exact ⟨trivial, trivial⟩
    | answer index a =>
        refine ⟨he.1, ?_⟩
        rw [show a = _ from he.2]
        refine stops_fullBeforeEnd fun hmore => if_neg ?_
        have hmore : (index * p.config.chunkSize).toInt.toNat + 4 < 8 := hmore
        omega
  exact ⟨s, hfull, hmem, readAt_partialReader eight 8 [configOf 4] _ s _ _ _ hfull hmem⟩

/-- The first of two chunks is short: the bytes of the second one slide into the place of
the missing ones. -/
theorem readAt_slides :
    ∃ s, Reach (Prefetcher.new 8 [configOf 4]).Step
        (fun _ e => ReadsFrom (.new 8 [configOf 4])
          (fun off k a => PartialReader eight off k a ∧
            a = stops eight (stopsIn 0) off.toInt.toNat) e)
        (start [.readAt readEight]) s ∧
      Task.readAt readEight (.returned [0, 1, 4, 5, 6, 7] none) ∈ s.tasks ∧
      [0, 1, 4, 5, 6, 7] ≠ slice eight readEight.start 6 := by
  let p := Prefetcher.new 8 [configOf 4]
  let Good := fun (index : Int64) bytes =>
    bytes = (stops eight (stopsIn 0) (index * p.config.chunkSize).toInt.toNat).data
  have hstart : p.startChunk readEight = 0 := by decide
  have h₀ : Copied p Good readEight 0 [] :=
    hstart ▸ .start ⟨by decide, by decide, by decide, by decide⟩
  have h₁ : Copied p Good readEight (0 + 1) [0, 1] :=
    .next h₀ (by decide) (by decide) rfl (by decide)
  have h₂ : Copied p Good readEight (0 + 1 + 1) [0, 1, 4, 5, 6, 7] :=
    .next h₁ (by decide) (by decide) rfl (by decide)
  obtain ⟨s, hrun, hmem⟩ :=
    stops_realised (p := p) (stopsIn_pos 0) (stopsIn_le 0) (Outcome.full h₂ (by decide))
  exact ⟨s, hrun, hmem, by decide⟩

end BuilderShim.Prefetch
