/-
  Prefetch/Result.lean --- the result of a read, case by case.

  A read of `len` bytes from `start` behaves in one of four ways, by where its end
  lies: within the data, beyond them, at `2 ^ 63`, or above, where the end has wrapped
  around.
-/
import BuilderShim.Prefetch.Exact

set_option autoImplicit false

namespace BuilderShim.Prefetch

section

variable {p : Prefetcher} {rd : Read} {data : Bytes}

/-! ## The parts of the result -/

theorem validateRead_eq_none (hoff : rd.off.toInt = rd.start) (hlen : 0 < rd.len) :
    p.validateRead rd = none ↔ p.size.toInt < 0 ∨ rd.start < p.size.toInt := by
  have hnonneg : ¬ rd.off < 0 := by
    rw [Int64.lt_iff_toInt_lt, hoff, Int64.toInt_zero]
    omega
  unfold Prefetcher.validateRead
  rw [if_neg hnonneg, if_neg (by omega)]
  by_cases hzero : p.size = 0
  · rw [if_pos ⟨hzero, hlen⟩, hzero, Int64.toInt_zero]
    simp
  · have hzero' : p.size.toInt ≠ 0 := fun h => hzero (Int64.toInt_inj.mp h)
    rw [if_neg fun h => hzero h.1]
    by_cases hbeyond : p.size > 0 ∧ rd.off ≥ p.size
    · rw [if_pos hbeyond]
      obtain ⟨h1, h2⟩ := hbeyond
      rw [gt_iff_lt, Int64.lt_iff_toInt_lt, Int64.toInt_zero] at h1
      rw [ge_iff_le, Int64.le_iff_toInt_le, hoff] at h2
      simp
      omega
    · rw [if_neg hbeyond]
      rw [gt_iff_lt, Int64.lt_iff_toInt_lt, Int64.toInt_zero, ge_iff_le, Int64.le_iff_toInt_le,
        hoff] at hbeyond
      simp only [true_iff]
      omega

theorem endsInChunk_iff (hoff : rd.off.toInt = rd.start) (hlen : 0 < rd.len)
    (hsum : rd.start + rd.len < 2 ^ 63) :
    p.endsInChunk rd = true ↔ (0 < p.size.toInt ∧ p.size.toInt < (rd.start + rd.len : Nat)) ∧
      rd.start / p.chunk = (rd.start + rd.len - 1) / p.chunk := by
  unfold Prefetcher.endsInChunk
  simp only [Bool.and_eq_true, decide_eq_true_eq, gt_iff_lt, Int64.lt_iff_toInt_lt,
    Int64.toInt_zero, readEnd_toInt hoff hsum, ← Int64.toInt_inj, startChunk_toInt p hoff,
    endChunk_toInt p hoff hlen (Nat.le_of_lt hsum), Int.ofNat_inj]

theorem endsInChunk_wrapped (hoff : rd.off.toInt = rd.start) (hsum : 2 ^ 63 ≤ rd.start + rd.len) :
    p.endsInChunk rd = false := by
  have hneg := readEnd_wrapped hoff hsum
  unfold Prefetcher.endsInChunk
  simp only [Bool.and_eq_false_iff, decide_eq_false_iff_not, gt_iff_lt, Int64.lt_iff_toInt_lt,
    Int64.toInt_zero]
  omega

theorem span_eq (hoff : rd.off.toInt = rd.start) (hlen : 0 < rd.len)
    (hsum : rd.start + rd.len ≤ 2 ^ 63) : p.span rd = rd.len := by
  unfold Prefetcher.span
  rw [endChunk_toInt p hoff hlen hsum]
  have hcover : rd.start + rd.len - 1 < ((rd.start + rd.len - 1) / p.chunk + 1) * p.chunk := by
    rw [Nat.mul_comm]
    exact Nat.lt_mul_div_succ _ (chunk_pos p)
  generalize (rd.start + rd.len - 1) / p.chunk = last at hcover
  have hcast : ((last : Int) + 1) * p.chunk = ((last + 1) * p.chunk : Nat) := by
    rw [Int.natCast_mul]
    rfl
  rw [hcast, Int.toNat_natCast]
  omega

/-- The sum has wrapped around to so little below zero that it counts as chunk zero. -/
theorem span_wrapped (hoff : rd.off.toInt = rd.start) (hsum : 2 ^ 63 < rd.start + rd.len) :
    p.span rd =
      if 2 ^ 64 - (rd.start + rd.len - 1) < p.chunk then p.chunk - rd.start else 0 := by
  have hpos := chunk_pos p
  have hlt := chunk_lt p
  unfold Prefetcher.span
  rw [endChunk_wrapped p hoff hsum]
  by_cases hm : 2 ^ 64 - (rd.start + rd.len - 1) < p.chunk
  · rw [if_pos hm, Nat.div_eq_of_lt hm]
    simp
    omega
  · have hone : 1 ≤ (2 ^ 64 - (rd.start + rd.len - 1)) / p.chunk :=
      (Nat.one_le_div_iff hpos).mpr (Nat.not_lt.mp hm)
    generalize (2 ^ 64 - (rd.start + rd.len - 1)) / p.chunk = q at hone
    have hneg : (-(q : Int) + 1) * p.chunk ≤ 0 :=
      Int.mul_nonpos_of_nonpos_of_nonneg (by omega) (by omega)
    rw [if_neg hm]
    omega

theorem finalErr_eq (hoff : rd.off.toInt = rd.start) {got : Bytes}
    (hsum : rd.start + got.length < 2 ^ 63) :
    p.finalErr rd got =
      if 0 < p.size.toInt ∧ p.size.toInt ≤ (rd.start + got.length : Nat) then some .eof
      else none := by
  have hgot : (Int64.ofNat got.length).toInt = got.length := Int64.toInt_ofNat_of_lt (by omega)
  have hend : (rd.off + Int64.ofNat got.length).toInt = (rd.start + got.length : Nat) := by
    rw [Int64.toInt_add, hgot, hoff, bmod_small (by omega) (by omega)]
    omega
  unfold Prefetcher.finalErr
  simp only [gt_iff_lt, ge_iff_le, Int64.lt_iff_toInt_lt, Int64.le_iff_toInt_le,
    Int64.toInt_zero, hend]

/-! ## When a read stalls -/

/-- Only chunks of one byte, up to the very last offset, keep the loop from ending. -/
theorem stalls_iff (hoff : rd.off.toInt = rd.start) (hlen : 0 < rd.len)
    (hvalid : p.validateRead rd = none) :
    Stalls p rd ↔ rd.start + rd.len = 2 ^ 63 ∧ p.chunk = 1 := by
  have hpos := chunk_pos p
  have hlt := start_lt rd
  have hlen' := rd.len_lt
  constructor
  · intro hs
    have hmax := congrArg Int64.toInt hs.max
    rw [maxValue_toInt] at hmax
    by_cases hsum : rd.start + rd.len ≤ 2 ^ 63
    · rw [endChunk_toInt p hoff hlen hsum] at hmax
      have hle := Nat.div_mul_le_self (rd.start + rd.len - 1) p.chunk
      generalize (rd.start + rd.len - 1) / p.chunk = last at hmax hle
      have hlast : last = 2 ^ 63 - 1 := by omega
      subst hlast
      have hone : p.chunk = 1 := by
        refine Nat.le_antisymm (Nat.le_of_not_lt fun htwo => ?_) hpos
        have := Nat.mul_le_mul_left (2 ^ 63 - 1) htwo
        omega
      exact ⟨by omega, hone⟩
    · rw [endChunk_wrapped p hoff (by omega)] at hmax
      generalize (2 ^ 64 - (rd.start + rd.len - 1)) / p.chunk = q at hmax
      omega
  · rintro ⟨hsum, hone⟩
    refine ⟨hvalid, by omega, endsInChunk_wrapped hoff (by omega), ?_⟩
    rw [← Int64.toInt_inj, endChunk_toInt p hoff hlen (by omega), hone, maxValue_toInt, hsum]
    rfl

theorem result_admitted (hlen : 0 < rd.len) (hvalid : p.validateRead rd = none)
    (hends : p.endsInChunk rd = false) :
    p.result rd data =
      (slice data rd.start (p.span rd), p.finalErr rd (slice data rd.start (p.span rd))) := by
  simp [Prefetcher.result, hvalid, Nat.ne_of_gt hlen, hends]

end

end BuilderShim.Prefetch
