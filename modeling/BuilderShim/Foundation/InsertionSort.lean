/-
  Foundation/InsertionSort.lean --- insertion sort in place, by a key.

  The inner loop moves the element it inserts to the left past everything with a
  greater key; `placed` is the list it leaves, whether or not what stands to the
  left is sorted.  The outer loop is the fold of `placed`, and that fold is a
  sorted permutation of the list.
-/
import Mathlib.Data.List.DropRight
import Mathlib.Order.Lattice

set_option autoImplicit false

namespace BuilderShim.Foundation

universe u v

variable {α : Type u} {κ : Type v} [LinearOrder κ]

/-! ## The loops -/

/-- The inner loop, with the hole at the given position. -/
def shift (used : α → κ) (key : α) : Nat → List α → List α
  | 0, l => l.set 0 key
  | j + 1, l =>
      match l[j]? with
      | some x => if used key < used x then shift used key j (l.set (j + 1) x)
          else l.set (j + 1) key
      | none => l

/-- One round of the outer loop. -/
def insertionRound (used : α → κ) (l : List α) (i : Nat) : List α :=
  match l[i]? with
  | some key => shift used key i l
  | none => l

/-- The outer loop. -/
def insertionSortLoop (used : α → κ) (l : List α) : List α :=
  (List.range' 1 (l.length - 1)).foldl (insertionRound used) l

/-! ## One insertion -/

def later (used : α → κ) (key x : α) : Bool := decide (used key < used x)

/-- The list with `key` in front of its longest end of elements with a greater key. -/
def placed (used : α → κ) (key : α) (l : List α) : List α :=
  l.rdropWhile (later used key) ++ key :: l.rtakeWhile (later used key)

section

variable {used : α → κ} {key x : α} {l rest : List α}

theorem placed_concat_of_lt (h : used key < used x) :
    placed used key (l ++ [x]) = placed used key l ++ [x] := by
  have hlater : later used key x = true := decide_eq_true h
  unfold placed
  rw [List.rdropWhile_concat_pos _ _ _ hlater, List.rtakeWhile_concat_pos _ _ _ hlater,
    List.append_assoc, List.cons_append]

theorem placed_concat_of_le (h : used x ≤ used key) :
    placed used key (l ++ [x]) = l ++ [x, key] := by
  have hnot : ¬ later used key x = true := fun hlt =>
    absurd (of_decide_eq_true hlt) (not_lt.mpr h)
  unfold placed
  rw [List.rdropWhile_concat_neg _ _ _ hnot, List.rtakeWhile_concat_neg _ _ _ hnot,
    List.append_assoc, List.singleton_append]

/-- The inner loop puts the key in its place and leaves what is behind the hole. -/
theorem shift_append (used : α → κ) (key x : α) (l rest : List α) :
    shift used key l.length (l ++ x :: rest) = placed used key l ++ rest := by
  induction l using List.reverseRecOn generalizing x rest with
  | nil => rfl
  | append_singleton l y ih =>
      have hlast : (l ++ [y] ++ x :: rest)[l.length]? = some y := by
        rw [List.append_assoc, List.getElem?_append_right (Nat.le_refl _), Nat.sub_self]
        rfl
      have hset : ∀ z, (l ++ [y] ++ x :: rest).set (l.length + 1) z = l ++ [y] ++ z :: rest := by
        intro z
        rw [List.set_append_right _ _ (by simp), List.length_append, List.length_singleton,
          Nat.sub_self, List.set_cons_zero]
      rw [List.length_append, List.length_singleton]
      unfold shift
      rw [hlast]
      dsimp only
      rw [hset, hset]
      split
      case isTrue hlt =>
        -- the hole moves on, and `y` is behind it
        rw [List.append_assoc, List.singleton_append, ih, placed_concat_of_lt hlt,
          List.append_assoc, List.singleton_append]
      case isFalse hnot =>
        rw [placed_concat_of_le (not_lt.mp hnot), List.append_assoc, List.append_assoc]
        rfl

theorem placed_perm (used : α → κ) (key : α) (l : List α) :
    (placed used key l).Perm (key :: l) := by
  unfold placed
  refine List.perm_middle.trans (List.Perm.cons key ?_)
  rw [List.rdropWhile_append_rtakeWhile]

theorem placed_sorted (key : α) (h : l.Pairwise (used · ≤ used ·)) :
    (placed used key l).Pairwise (used · ≤ used ·) := by
  induction l using List.reverseRecOn with
  | nil => exact List.pairwise_singleton _ _
  | append_singleton l y ih =>
      obtain ⟨hl, _, hy⟩ := List.pairwise_append.mp h
      by_cases hlt : used key < used y
      · rw [placed_concat_of_lt hlt]
        refine List.pairwise_append.mpr ⟨ih hl, List.pairwise_singleton _ _, fun a ha b hb => ?_⟩
        rw [List.mem_singleton.mp hb]
        rcases List.mem_cons.mp ((placed_perm used key l).mem_iff.mp ha) with rfl | ha
        · exact le_of_lt hlt
        · exact hy a ha y List.mem_cons_self
      · have hle := not_lt.mp hlt
        rw [placed_concat_of_le hle,
          show l ++ [y, key] = (l ++ [y]) ++ [key] from (List.append_assoc l [y] [key]).symm]
        refine List.pairwise_append.mpr ⟨h, List.pairwise_singleton _ _, fun a ha b hb => ?_⟩
        rw [List.mem_singleton.mp hb]
        rcases List.mem_append.mp ha with ha | ha
        · exact le_trans (hy a ha y List.mem_cons_self) hle
        · rw [List.mem_singleton.mp ha]
          exact hle

/-! ## The whole sort -/

/-- The list with its elements placed one after the other. -/
def placedAll (used : α → κ) (l : List α) : List α :=
  l.foldl (fun sorted key => placed used key sorted) []

theorem insertionRound_append (used : α → κ) (key : α) (l rest : List α) :
    insertionRound used (l ++ key :: rest) l.length = placed used key l ++ rest := by
  have hkey : (l ++ key :: rest)[l.length]? = some key := by
    rw [List.getElem?_append_right (Nat.le_refl _), Nat.sub_self]
    rfl
  unfold insertionRound
  rw [hkey]
  exact shift_append used key key l rest

theorem foldl_insertionRound (used : α → κ) (l rest : List α) :
    (List.range' l.length rest.length).foldl (insertionRound used) (l ++ rest) =
      rest.foldl (fun sorted key => placed used key sorted) l := by
  induction rest generalizing l with
  | nil => exact List.append_nil l
  | cons key rest ih =>
      have hlen : (placed used key l).length = l.length + 1 := (placed_perm used key l).length_eq
      rw [List.length_cons, List.range'_succ, List.foldl_cons, List.foldl_cons,
        insertionRound_append, ← hlen, ih]

/-- The outer loop places the elements one after the other. -/
theorem insertionSortLoop_eq (used : α → κ) (l : List α) :
    insertionSortLoop used l = placedAll used l := by
  cases l with
  | nil => rfl
  | cons x rest => exact foldl_insertionRound used [x] rest

theorem placedAll_sorted (used : α → κ) (l : List α) :
    (placedAll used l).Pairwise (used · ≤ used ·) := by
  have hfold : ∀ (l acc : List α), acc.Pairwise (used · ≤ used ·) →
      (l.foldl (fun sorted key => placed used key sorted) acc).Pairwise (used · ≤ used ·) := by
    intro l
    induction l with
    | nil => exact fun acc hacc => hacc
    | cons key l ih => exact fun acc hacc => ih _ (placed_sorted key hacc)
  exact hfold l [] List.Pairwise.nil

end

end BuilderShim.Foundation
