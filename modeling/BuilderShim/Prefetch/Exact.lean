/-
  Prefetch/Exact.lean --- the result of a read over exact chunks, in closed form.

  If every chunk holds exactly the bytes of the source at its place, the outcome of
  a read is determined by its arguments, the chunk size and the declared size
  (`result`), except that a read may never return at all (`Stalls`): when its last
  chunk is the largest index there is, the loop over the chunks cannot end.
-/
import BuilderShim.Prefetch.Arith
import BuilderShim.Prefetch.Solo

set_option autoImplicit false

namespace BuilderShim.Prefetch

open BuilderShim.Foundation

/-- `data[off, off + n)`, as far as there are data. -/
def slice (data : Bytes) (off n : Nat) : Bytes := (data.drop off).take n

theorem length_slice (data : Bytes) (off n : Nat) :
    (slice data off n).length = min n (data.length - off) := by
  simp [slice]

theorem slice_add (data : Bytes) (off m n : Nat) :
    slice data off (m + n) = slice data off m ++ slice data (off + m) n := by
  simp only [slice, List.take_add, List.drop_drop]

theorem drop_slice (data : Bytes) (off n m : Nat) :
    (slice data off n).drop m = slice data (off + m) (n - m) := by
  simp only [slice, List.drop_take, List.drop_drop]

theorem take_slice (data : Bytes) (off n m : Nat) :
    (slice data off n).take m = slice data off (min m n) := by
  simp only [slice, List.take_take]

/-- Beyond the end of the data it makes no difference how much is asked for. -/
theorem slice_eq_of_le {data : Bytes} {off m n : Nat} (hm : data.length ≤ off + m)
    (hn : data.length ≤ off + n) : slice data off m = slice data off n := by
  simp only [slice]
  rw [List.take_of_length_le (by simp; omega), List.take_of_length_le (by simp; omega)]

/-- What comes before `a`, and then what a piece of `c` bytes at `a` has of the rest. -/
theorem slice_extend (data : Bytes) {start a c n : Nat} (hlast : start ≤ a + c)
    (hlen : a - start ≤ n) :
    slice data start (a - start) ++
        ((slice data a c).drop (start - a)).take (n - (a - start)) =
      slice data start (min n (a + c - start)) := by
  have hplace : a + (start - a) = start + (a - start) := by omega
  have hcount : min n (a + c - start) = (a - start) + min (n - (a - start)) (c - (start - a)) := by
    omega
  rw [drop_slice, take_slice, hplace, hcount, slice_add]

theorem take_min_length (l : Bytes) (k : Nat) : l.take (min l.length k) = l.take k := by
  rw [Nat.min_comm, ← List.take_take, List.take_length]

/-- The chunk holds the bytes of the source at its place, if it has one. -/
def Exact (p : Prefetcher) (data : Bytes) (index : Int64) (bytes : Bytes) : Prop :=
  0 ≤ index.toInt → index.toInt * p.chunk < 2 ^ 63 →
    bytes = slice data (index.toInt.toNat * p.chunk) p.chunk

/-! ## The copy loop -/

section

variable {p : Prefetcher} {rd : Read} {Good : Int64 → Bytes → Prop} {data : Bytes}

theorem Proceeds.off_toInt (h : Proceeds p rd) : rd.off.toInt = rd.start := by
  refine Read.off_toInt fun hneg => ?_
  have hv := h.valid
  simp [Prefetcher.validateRead, hneg] at hv

variable {got : Bytes} {index : Int64}

theorem Copied.proceeds (h : Copied p Good rd index got) :
    Proceeds p rd := by
  induction h with
  | start hgo => exact hgo
  | next _ _ _ _ _ ih => exact ih

/-- The loop goes upwards from the first chunk, and one beyond the last at most. -/
theorem Copied.range (h : Copied p Good rd index got) :
    (index = p.startChunk rd ∧ got = []) ∨
      ((p.startChunk rd).toInt < index.toInt ∧ index.toInt ≤ (p.endChunk rd).toInt + 1) := by
  induction h with
  | start _ => exact .inl ⟨rfl, rfl⟩
  | @next index got got' data h hi _ _ _ ih =>
      have hsucc := toInt_succ hi h.proceeds.max
      have hle := Int64.le_iff_toInt_le.mp hi
      refine .inr ?_
      rcases ih with ⟨rfl, _⟩ | ⟨hlt, _⟩
      · exact ⟨by omega, by omega⟩
      · exact ⟨by omega, by omega⟩

/-- The index as a natural number, with the first chunk below it. -/
theorem Copied.index_nat (h : Copied p Good rd index got) :
    index.toInt = index.toInt.toNat ∧ rd.start / p.chunk ≤ index.toInt.toNat := by
  have hstart := startChunk_toInt p h.proceeds.off_toInt
  generalize rd.start / p.chunk = first at hstart
  rcases h.range with ⟨rfl, _⟩ | ⟨hlt, _⟩
  · omega
  · omega

/-- The offset within a chunk is what the start of the read exceeds the chunk's by. -/
theorem chunkOffset_eq (hoff : rd.off.toInt = rd.start) {i : Nat} (hindex : index.toInt = i)
    (hle : rd.start / p.chunk ≤ i) :
    p.chunkOffset rd index = rd.start - i * p.chunk := by
  have hstart := startChunk_toInt p hoff
  have hmod := Nat.div_add_mod rd.start p.chunk
  rw [Nat.mul_comm] at hmod
  by_cases heq : index = p.startChunk rd
  · have hi : i = rd.start / p.chunk := by
      rw [heq, hstart] at hindex
      exact (Int.ofNat_inj.mp hindex).symm
    rw [heq, chunkOffset_start p hoff, hi]
    omega
  · have hlt : rd.start / p.chunk < i := by
      refine Nat.lt_of_le_of_ne hle fun h => heq ?_
      rw [← Int64.toInt_inj, hstart, hindex, h]
    have hnext : rd.start < i * p.chunk := (Nat.div_lt_iff_lt_mul (chunk_pos p)).mp hlt
    unfold Prefetcher.chunkOffset
    rw [if_neg heq]
    omega

/-- One round of `copyChunks` over an exact chunk: the loop ends at the end of the data,
or the buffer is filled up to the end of the chunk. -/
theorem copyChunk_exact (hoff : rd.off.toInt = rd.start) {i : Nat} (hindex : index.toInt = i)
    (hle : rd.start / p.chunk ≤ i)
    (hgot : got = slice data rd.start (min rd.len (i * p.chunk - rd.start)))
    (hlen : got.length < rd.len) :
    (p.copyChunk rd index got (slice data (i * p.chunk) p.chunk) = none ∧
        data.length ≤ max (i * p.chunk) rd.start) ∨
      p.copyChunk rd index got (slice data (i * p.chunk) p.chunk) =
        some (slice data rd.start (min rd.len ((i + 1) * p.chunk - rd.start))) := by
  have hpos := chunk_pos p
  have hlast : rd.start < (i + 1) * p.chunk :=
    (Nat.div_lt_iff_lt_mul hpos).mp (Nat.lt_succ_of_le hle)
  rw [Nat.succ_mul] at hlast ⊢
  unfold Prefetcher.copyChunk
  rw [chunkOffset_eq hoff hindex hle]
  dsimp only
  split
  · rename_i hshort
    rw [length_slice] at hshort
    exact .inl ⟨rfl, by omega⟩
  · rename_i hlong
    rw [length_slice] at hlong
    have hgotlen : got.length = i * p.chunk - rd.start := by
      rw [hgot, length_slice] at hlen ⊢
      omega
    have hmin : min rd.len (i * p.chunk - rd.start) = i * p.chunk - rd.start := by omega
    rw [hmin] at hgot
    rw [← List.length_drop, take_min_length, hgotlen, hgot]
    exact .inr (congrArg some (slice_extend data (Nat.le_of_lt hlast) (by omega)))

/-- An index of the loop has a place in the source. -/
theorem Copied.exact_data {bytes : Bytes} (h : Copied p Good rd index got)
    (hi : index ≤ p.endChunk rd) (hb : Exact p data index bytes) :
    bytes = slice data (index.toInt.toNat * p.chunk) p.chunk := by
  have hnat := h.index_nat.1
  have hend := endChunk_mul_lt p h.proceeds.off_toInt (Nat.pos_of_ne_zero h.proceeds.len)
  have hle := Int64.le_iff_toInt_le.mp hi
  refine hb (by omega) ?_
  have hmul : index.toInt * p.chunk ≤ (p.endChunk rd).toInt * p.chunk :=
    Int.mul_le_mul_of_nonneg_right hle (by omega)
  omega

/-- Over exact chunks the buffer holds the bytes of the source up to the current chunk. -/
theorem Copied.exact (h : Copied p (Exact p data) rd index got) :
    got = slice data rd.start (min rd.len (index.toInt.toNat * p.chunk - rd.start)) := by
  induction h with
  | start hgo =>
      have hle : rd.start / p.chunk * p.chunk ≤ rd.start := Nat.div_mul_le_self _ _
      rw [startChunk_toInt p hgo.off_toInt, Int.toNat_natCast, Nat.sub_eq_zero_of_le hle]
      simp [slice]
  | @next index got got' bytes h hi hlen hgood hcopy ih =>
      obtain ⟨hnat, hle⟩ := h.index_nat
      have hsucc := toInt_succ hi h.proceeds.max
      rw [h.exact_data hi hgood] at hcopy
      have hto : (index + 1).toInt.toNat = index.toInt.toNat + 1 := by omega
      rw [hto]
      rcases copyChunk_exact h.proceeds.off_toInt hnat hle ih hlen with ⟨hnone, _⟩ | hsome
      · rw [hnone] at hcopy
        cases hcopy
      · rw [hsome] at hcopy
        exact (Option.some.inj hcopy).symm

end

/-! ## The result -/

/-- How many bytes the chunks of the loop cover, from the start of the read on. -/
def Prefetcher.span (p : Prefetcher) (rd : Read) : Nat :=
  min rd.len ((((p.endChunk rd).toInt + 1) * p.chunk).toNat - rd.start)

/-- What a read returns over exact chunks. -/
def Prefetcher.result (p : Prefetcher) (rd : Read) (data : Bytes) : Bytes × Option Err :=
  match p.validateRead rd with
  | some e => ([], some e)
  | none =>
      if rd.len = 0 then ([], none)
      else if p.endsInChunk rd then ([], some .eof)
      else (slice data rd.start (p.span rd), p.finalErr rd (slice data rd.start (p.span rd)))

/-- The loop over the chunks of the read does not end. -/
structure Stalls (p : Prefetcher) (rd : Read) : Prop where
  valid : p.validateRead rd = none
  len : rd.len ≠ 0
  ends : p.endsInChunk rd = false
  max : p.endChunk rd = Int64.maxValue

section

variable {p : Prefetcher} {rd : Read} {data : Bytes}

theorem Proceeds.not_stalls (h : Proceeds p rd) : ¬ Stalls p rd := by
  intro hs
  have hmax := h.max
  rw [hs.max] at hmax
  exact Int64.lt_irrefl hmax

theorem Proceeds.result_eq (h : Proceeds p rd) (data : Bytes) :
    p.result rd data =
      (slice data rd.start (p.span rd), p.finalErr rd (slice data rd.start (p.span rd))) := by
  simp [Prefetcher.result, h.valid, h.len, h.ends]

variable {got : Bytes}

/-- The loop has run to its end. -/
theorem Copied.exact_full {index : Int64} (h : Copied p (Exact p data) rd index got)
    (hstop : ¬ (index ≤ p.endChunk rd ∧ got.length < rd.len)) :
    got = slice data rd.start (p.span rd) := by
  have hgot := h.exact
  have hpos := chunk_pos p
  have hlen := Nat.pos_of_ne_zero h.proceeds.len
  obtain ⟨hnat, hle⟩ := h.index_nat
  unfold Prefetcher.span
  rcases h.range with ⟨rfl, rfl⟩ | ⟨hlt, hmax⟩
  · -- Nothing was copied: the last chunk is below the first.
    have hend : ¬ p.startChunk rd ≤ p.endChunk rd := fun hi => hstop ⟨hi, by simpa using hlen⟩
    have hend' := mt Int64.le_iff_toInt_le.mpr hend
    have hbelow : ((p.endChunk rd).toInt + 1) * p.chunk ≤ (p.startChunk rd).toInt * p.chunk :=
      Int.mul_le_mul_of_nonneg_right (by omega) (by omega)
    rw [startChunk_toInt p h.proceeds.off_toInt, ← Int.natCast_mul] at hbelow
    have hfirst : rd.start / p.chunk * p.chunk ≤ rd.start := Nat.div_mul_le_self _ _
    have hzero : (((p.endChunk rd).toInt + 1) * p.chunk).toNat - rd.start = 0 := by omega
    rw [hzero]
    simp [slice]
  · by_cases hi : index ≤ p.endChunk rd
    · -- The buffer is full.
      have hfull : rd.len ≤ got.length := Nat.not_lt.mp fun hl => hstop ⟨hi, hl⟩
      have hi' := Int64.le_iff_toInt_le.mp hi
      have hcover : index.toInt * p.chunk ≤ ((p.endChunk rd).toInt + 1) * p.chunk :=
        Int.mul_le_mul_of_nonneg_right (by omega) (by omega)
      rw [hnat, ← Int.natCast_mul] at hcover
      have hbound : got.length ≤ min rd.len (index.toInt.toNat * p.chunk - rd.start) := by
        rw [hgot, length_slice]
        omega
      rw [hgot]
      congr 1
      omega
    · have hi' := mt Int64.le_iff_toInt_le.mpr hi
      have hlast : (p.endChunk rd).toInt + 1 = index.toInt := by omega
      rw [hgot, hlast, hnat, ← Int.natCast_mul]
      rfl

/-- The loop has ended at a chunk with nothing more. -/
theorem Copied.exact_short {index : Int64} {bytes : Bytes}
    (h : Copied p (Exact p data) rd index got) (hi : index ≤ p.endChunk rd)
    (hlen : got.length < rd.len) (hb : Exact p data index bytes)
    (hcopy : p.copyChunk rd index got bytes = none) :
    got = slice data rd.start (p.span rd) := by
  have hgot := h.exact
  obtain ⟨hnat, hle⟩ := h.index_nat
  have hi' := Int64.le_iff_toInt_le.mp hi
  rw [h.exact_data hi hb] at hcopy
  rcases copyChunk_exact h.proceeds.off_toInt hnat hle hgot hlen with ⟨_, hend⟩ | hsome
  · have hcover : index.toInt * p.chunk ≤ ((p.endChunk rd).toInt + 1) * p.chunk :=
      Int.mul_le_mul_of_nonneg_right (by omega) (by omega)
    rw [hnat, ← Int.natCast_mul] at hcover
    rw [hgot, length_slice] at hlen
    rw [hgot]
    unfold Prefetcher.span
    exact slice_eq_of_le (by omega) (by omega)
  · rw [hsome] at hcopy
    cases hcopy

/-- Without faults the outcome over exact chunks is the result. -/
theorem Outcome.exact {err : Option Err} (h : Outcome p (Exact p data) False rd got err) :
    (got, err) = p.result rd data ∧ ¬ Stalls p rd := by
  cases h with
  | closed hf => exact hf.elim
  | refused hv =>
      refine ⟨by simp [Prefetcher.result, hv], fun hs => ?_⟩
      rw [hs.valid] at hv
      cases hv
  | empty hv hlen => exact ⟨by simp [Prefetcher.result, hv, hlen], fun hs => hs.len hlen⟩
  | ends hv hlen hend =>
      refine ⟨by simp [Prefetcher.result, hv, hlen, hend], fun hs => ?_⟩
      rw [hs.ends] at hend
      cases hend
  | full hc hstop =>
      rw [hc.proceeds.result_eq, ← hc.exact_full hstop]
      exact ⟨rfl, hc.proceeds.not_stalls⟩
  | short hc hi hlen hgood hcopy =>
      rw [hc.proceeds.result_eq, ← hc.exact_short hi hlen hgood hcopy]
      exact ⟨rfl, hc.proceeds.not_stalls⟩
  | failed hf _ => exact hf.elim

/-- Where faults may occur, the result or an error. -/
theorem Outcome.exact_or_err {err : Option Err} (h : Outcome p (Exact p data) True rd got err) :
    ((got, err) = p.result rd data ∧ ¬ Stalls p rd) ∨ err ≠ none := by
  cases h with
  | closed _ => exact .inr (by simp)
  | refused hv => exact .inl (Outcome.exact (.refused hv))
  | empty hv hlen => exact .inl (Outcome.exact (.empty hv hlen))
  | ends hv hlen hend => exact .inl (Outcome.exact (.ends hv hlen hend))
  | full hc hstop => exact .inl (Outcome.exact (.full hc hstop))
  | short hc hi hlen hgood hcopy => exact .inl (Outcome.exact (.short hc hi hlen hgood hcopy))
  | failed _ _ => exact .inr (by simp)

end

/-! ## An outcome exists -/

section

variable {p : Prefetcher} {rd : Read} {Good : Int64 → Bytes → Prop}

variable {got : Bytes}

/-- Over any chunks the copy loop ends. -/
theorem Copied.ends {D : Int64 → Bytes} {index : Int64}
    (h : Copied p (fun index bytes => bytes = D index) rd index got) :
    ∃ got' err, Outcome p (fun index bytes => bytes = D index) False rd got' err := by
  induction hn : ((p.endChunk rd).toInt + 1 - index.toInt).toNat generalizing index got with
  | zero =>
      refine ⟨got, _, .full h fun hstop => ?_⟩
      have := Int64.le_iff_toInt_le.mp hstop.1
      omega
  | succ n ih =>
      by_cases hgo : index ≤ p.endChunk rd ∧ got.length < rd.len
      · cases hcopy : p.copyChunk rd index got (D index) with
        | none => exact ⟨got, _, .short h hgo.1 hgo.2 rfl hcopy⟩
        | some got' =>
            have hsucc := toInt_succ hgo.1 h.proceeds.max
            exact ih (.next h hgo.1 hgo.2 rfl hcopy) (by omega)
      · exact ⟨got, _, .full h hgo⟩

theorem exists_outcome (D : Int64 → Bytes) (h : ¬ Stalls p rd) :
    ∃ got err, Outcome p (fun index bytes => bytes = D index) False rd got err := by
  cases hv : p.validateRead rd with
  | some e => exact ⟨_, _, .refused hv⟩
  | none =>
      by_cases hlen : rd.len = 0
      · exact ⟨_, _, .empty hv hlen⟩
      · cases hend : p.endsInChunk rd with
        | true => exact ⟨_, _, .ends hv hlen hend⟩
        | false =>
            have hmax : p.endChunk rd < Int64.maxValue :=
              Int64.lt_of_le_of_ne (Int64.le_maxValue _) fun hm => h ⟨hv, hlen, hend, hm⟩
            exact (Copied.start ⟨hv, hlen, hend, hmax⟩).ends

theorem Copied.mono {Good' : Int64 → Bytes → Prop} (hg : ∀ index bytes, Good index bytes →
    Good' index bytes) {index : Int64} (h : Copied p Good rd index got) :
    Copied p Good' rd index got := by
  induction h with
  | start hgo => exact .start hgo
  | next _ hi hlen hgood hcopy ih => exact .next ih hi hlen (hg _ _ hgood) hcopy

theorem Outcome.mono {Good' : Int64 → Bytes → Prop} (hg : ∀ index bytes, Good index bytes →
    Good' index bytes) {faults : Prop} {err : Option Err} (h : Outcome p Good faults rd got err) :
      Outcome p Good' faults rd got err := by
  cases h with
  | closed hf => exact .closed hf
  | refused hv => exact .refused hv
  | empty hv hlen => exact .empty hv hlen
  | ends hv hlen hend => exact .ends hv hlen hend
  | full hc hstop => exact .full (hc.mono hg) hstop
  | short hc hi hlen hgood hcopy => exact .short (hc.mono hg) hi hlen (hg _ _ hgood) hcopy
  | failed hf hc => exact .failed hf (hc.mono hg)

end

end BuilderShim.Prefetch
