/-
  Prefetch/Arith.lean --- the index arithmetic of the prefetcher, in natural numbers.

  Offsets, sizes and indices are 64-bit numbers in the code and wrap around.  Here
  the chunk size and an offset that is not negative are natural numbers, and the
  chunk indices of a read are computed from them: without a wrap while the read ends
  at `2 ^ 63` or below, and as what the wrapped sum gives above.
-/
import BuilderShim.Prefetch.Prefetcher

set_option autoImplicit false

namespace BuilderShim.Prefetch

/-- The chunk size. -/
def Prefetcher.chunk (p : Prefetcher) : Nat := p.config.chunkSize.toInt.toNat

/-- The offset of a read, where it is not negative. -/
def Read.start (rd : Read) : Nat := rd.off.toInt.toNat

theorem bmod_small {x : Int} (h : -2 ^ 63 ≤ x) (h' : x < 2 ^ 63) : x.bmod (2 ^ 64) = x :=
  Int.bmod_eq_of_le (by omega) (by omega)

theorem bmod_nat {n : Nat} (h : n < 2 ^ 63) : (n : Int).bmod (2 ^ 64) = n :=
  bmod_small (by omega) (by omega)

theorem bmod_neg_nat {n : Nat} (h : n ≤ 2 ^ 63) : (-(n : Int)).bmod (2 ^ 64) = -n :=
  bmod_small (by omega) (by omega)

theorem tdiv_nat (a c : Nat) : (a : Int).tdiv c = (a / c : Nat) := (Int.ofNat_tdiv a c).symm

theorem one_toInt : (1 : Int64).toInt = 1 := by decide

theorem maxValue_toInt : Int64.maxValue.toInt = 2 ^ 63 - 1 := by decide

theorem pos_iff_toInt {x : Int64} : 0 < x ↔ 0 < x.toInt := by
  rw [Int64.lt_iff_toInt_lt, Int64.toInt_zero]

section

variable (p : Prefetcher)

theorem chunk_toInt : p.config.chunkSize.toInt = p.chunk := by
  have h := pos_iff_toInt.mp p.chunkSize_pos
  unfold Prefetcher.chunk
  omega

theorem chunk_pos : 0 < p.chunk := by
  have h := pos_iff_toInt.mp p.chunkSize_pos
  unfold Prefetcher.chunk
  omega

theorem chunk_lt : p.chunk < 2 ^ 63 := by
  have h := Int64.toInt_lt p.config.chunkSize
  rw [chunk_toInt] at h
  omega

end

section

variable (rd : Read)

theorem len_toInt : (Int64.ofNat rd.len).toInt = rd.len := Int64.toInt_ofNat_of_lt rd.len_lt

theorem start_lt : rd.start < 2 ^ 63 := by
  have h := Int64.toInt_lt rd.off
  unfold Read.start
  omega

end

/-- The offset is not negative. -/
theorem Read.off_toInt {rd : Read} (h : ¬ rd.off < 0) : rd.off.toInt = rd.start := by
  have h' := mt Int64.lt_iff_toInt_lt.mpr h
  simp only [Int64.toInt_zero] at h'
  unfold Read.start
  omega

/-! ## Where a read starts and ends -/

section

variable (p : Prefetcher) {rd : Read}

theorem startChunk_toInt (h : rd.off.toInt = rd.start) :
    (p.startChunk rd).toInt = (rd.start / p.chunk : Nat) := by
  unfold Prefetcher.startChunk
  rw [Int64.toInt_div, chunk_toInt, h, tdiv_nat]
  exact bmod_nat (Nat.lt_of_le_of_lt (Nat.div_le_self _ _) (start_lt rd))

/-- `offset % chunkSize` -/
theorem chunkOffset_start (h : rd.off.toInt = rd.start) :
    p.chunkOffset rd (p.startChunk rd) = rd.start % p.chunk := by
  unfold Prefetcher.chunkOffset
  rw [if_pos rfl, Int64.toInt_mod, chunk_toInt, h, ← Int.ofNat_tmod]
  rfl

/-- The end of the read, where it does not wrap. -/
theorem readEnd_toInt (h : rd.off.toInt = rd.start) (hsum : rd.start + rd.len < 2 ^ 63) :
    (rd.off + Int64.ofNat rd.len).toInt = (rd.start + rd.len : Nat) := by
  rw [Int64.toInt_add, len_toInt, h, bmod_small (by omega) (by omega)]
  omega

theorem readEnd_wrapped (h : rd.off.toInt = rd.start) (hsum : 2 ^ 63 ≤ rd.start + rd.len) :
    (rd.off + Int64.ofNat rd.len).toInt < 0 := by
  have hlt := start_lt rd
  have hlen := rd.len_lt
  have hwrap : ((rd.start : Int) + rd.len) =
      ((rd.start : Int) + rd.len - 2 ^ 64) + (2 ^ 64 : Nat) := by
    rw [show ((2 ^ 64 : Nat) : Int) = 2 ^ 64 from rfl]
    omega
  rw [Int64.toInt_add, len_toInt, h, hwrap, Int.add_bmod_right, bmod_small (by omega) (by omega)]
  omega

theorem endChunk_toInt (h : rd.off.toInt = rd.start) (hlen : 0 < rd.len)
    (hsum : rd.start + rd.len ≤ 2 ^ 63) :
    (p.endChunk rd).toInt = ((rd.start + rd.len - 1) / p.chunk : Nat) := by
  have hw : (rd.off + Int64.ofNat rd.len - 1).toInt = (rd.start + rd.len - 1 : Nat) := by
    rw [Int64.toInt_sub, Int64.toInt_add, len_toInt, h, one_toInt, Int.bmod_sub_bmod,
      bmod_small (by omega) (by omega)]
    omega
  unfold Prefetcher.endChunk
  rw [Int64.toInt_div, chunk_toInt, hw, tdiv_nat]
  exact bmod_nat (Nat.lt_of_le_of_lt (Nat.div_le_self _ _) (by omega))

theorem endChunk_wrapped (h : rd.off.toInt = rd.start) (hsum : 2 ^ 63 < rd.start + rd.len) :
    (p.endChunk rd).toInt = -((2 ^ 64 - (rd.start + rd.len - 1)) / p.chunk : Nat) := by
  have hlt := start_lt rd
  have hlen := rd.len_lt
  have hw : (rd.off + Int64.ofNat rd.len - 1).toInt =
      -(2 ^ 64 - (rd.start + rd.len - 1) : Nat) := by
    have hwrap : ((rd.start : Int) + rd.len - 1) =
        -(2 ^ 64 - (rd.start + rd.len - 1) : Nat) + (2 ^ 64 : Nat) := by
      rw [show ((2 ^ 64 : Nat) : Int) = 2 ^ 64 from rfl]
      omega
    rw [Int64.toInt_sub, Int64.toInt_add, len_toInt, h, one_toInt, Int.bmod_sub_bmod, hwrap,
      Int.add_bmod_right]
    exact bmod_small (by omega) (by omega)
  unfold Prefetcher.endChunk
  rw [Int64.toInt_div, chunk_toInt, hw, Int.neg_tdiv, tdiv_nat]
  exact bmod_neg_nat (Nat.le_trans (Nat.div_le_self _ _) (by omega))

/-- Every chunk of a read starts below `2 ^ 63`. -/
theorem endChunk_mul_lt (h : rd.off.toInt = rd.start) (hlen : 0 < rd.len) :
    (p.endChunk rd).toInt * p.chunk < 2 ^ 63 := by
  have hlt := start_lt rd
  have hlen' := rd.len_lt
  by_cases hsum : rd.start + rd.len ≤ 2 ^ 63
  · rw [endChunk_toInt p h hlen hsum]
    have hmul := Nat.div_mul_le_self (rd.start + rd.len - 1) p.chunk
    rw [← Int.natCast_mul]
    omega
  · rw [endChunk_wrapped p h (by omega)]
    have hnonpos : -(((2 ^ 64 - (rd.start + rd.len - 1)) / p.chunk : Nat) : Int) * p.chunk ≤ 0 := by
      rw [Int.neg_mul, ← Int.natCast_mul]
      omega
    omega

end

end BuilderShim.Prefetch
