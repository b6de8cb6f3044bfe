/-
  GoLib/Sort.lean --- Go's `sort.Search`.

  A binary search for the first index at which a predicate holds.  The loop is
  structural in the number of rounds, of which as many as there are indices are
  enough.
-/
import Mathlib.Data.Nat.Basic

set_option autoImplicit false

namespace BuilderShim.Sort

/-- The loop of `sort.Search`, between `i` and `j`. -/
def searchLoop (f : Nat → Bool) : Nat → Nat → Nat → Nat
  | 0, i, _ => i
  | rounds + 1, i, j =>
      if i < j then
        let h := (i + j) / 2
        if f h then searchLoop f rounds i h else searchLoop f rounds (h + 1) j
      else i

/-- `sort.Search` -/
def search (n : Nat) (f : Nat → Bool) : Nat := searchLoop f n 0 n

section

variable {f : Nat → Bool} {n : Nat}

/-- What the loop maintains: the predicate fails right before the lower bound and holds at
the upper one. -/
theorem searchLoop_spec (rounds : Nat) :
    ∀ {i j : Nat}, i ≤ j → j - i ≤ rounds → (i = 0 ∨ f (i - 1) = false) → (j = n ∨ f j = true) →
      searchLoop f rounds i j ≤ j ∧
        (searchLoop f rounds i j = 0 ∨ f (searchLoop f rounds i j - 1) = false) ∧
        (searchLoop f rounds i j = n ∨ f (searchLoop f rounds i j) = true) := by
  induction rounds with
  | zero =>
      intro i j hij hrounds hi hj
      obtain rfl : i = j := by omega
      exact ⟨Nat.le_refl i, hi, hj⟩
  | succ rounds ih =>
      intro i j hij hrounds hi hj
      rw [searchLoop]
      by_cases hlt : i < j
      · rw [if_pos hlt]
        cases hf : f ((i + j) / 2) with
        | true =>
            obtain ⟨hle, hspec⟩ := ih (i := i) (j := (i + j) / 2) (by omega) (by omega) hi (.inr hf)
            simp only [hf, if_true]
            exact ⟨by omega, hspec⟩
        | false =>
            have hbefore : (i + j) / 2 + 1 = 0 ∨ f ((i + j) / 2 + 1 - 1) = false := .inr hf
            simp only [hf, Bool.false_eq_true, if_false]
            exact ih (by omega) (by omega) hbefore hj
      · obtain rfl : i = j := by omega
        rw [if_neg hlt]
        exact ⟨Nat.le_refl i, hi, hj⟩

/-- For a predicate that fails up to an index and holds from there on, it is that one. -/
theorem search_eq {k : Nat} (hk : k < n) (hfalse : ∀ m, m < k → f m = false)
    (htrue : ∀ m, k ≤ m → m < n → f m = true) : search n f = k := by
  obtain ⟨hle, hbefore, hat⟩ :=
    searchLoop_spec (f := f) (n := n) n (Nat.zero_le n) (Nat.le_refl n) (.inl rfl) (.inl rfl)
  change search n f ≤ n at hle
  change search n f = 0 ∨ f (search n f - 1) = false at hbefore
  change search n f = n ∨ f (search n f) = true at hat
  apply Nat.le_antisymm
  · by_contra hgt
    rw [htrue (search n f - 1) (by omega) (by omega)] at hbefore
    rcases hbefore with h | h
    · omega
    · cases h
  · by_contra hlt
    rw [hfalse (search n f) (by omega)] at hat
    rcases hat with h | h
    · omega
    · cases h

end

end BuilderShim.Sort
