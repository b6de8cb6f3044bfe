/-
  Foundation/Merge.lean --- inserting one list into another.

  The elements of the first list are put, in their order, before the first element
  of the second that they belong before.  Neither list has to be sorted, so the
  result is sorted only where the two agree with `before`.
-/
import Mathlib.Data.List.TakeWhile
import Mathlib.Tactic.Tauto

set_option autoImplicit false

namespace BuilderShim.Foundation

universe u v

variable {α : Type u} {β : Type v}

/-- The elements of `xs` before the first of the others that they belong before, and at the
end if there is none. -/
def mergeBefore (before : α → α → Bool) : List α → List α → List α
  | xs, [] => xs
  | xs, y :: ys =>
      xs.takeWhile (before · y) ++ y :: mergeBefore before (xs.dropWhile (before · y)) ys

section

variable {before : α → α → Bool} {x y : α} {xs ys : List α}

theorem takeWhile_before (h : before x y = false) :
    (x :: xs).takeWhile (before · y) = [] := by
  rw [List.takeWhile_cons, h]
  rfl

theorem dropWhile_before (h : before x y = false) :
    (x :: xs).dropWhile (before · y) = x :: xs := by
  rw [List.dropWhile_cons, h]
  rfl

theorem mergeBefore_map {before' : β → β → Bool} (f : α → β)
    (h : ∀ a b, before' (f a) (f b) = before a b) (xs ys : List α) :
    (mergeBefore before xs ys).map f = mergeBefore before' (xs.map f) (ys.map f) := by
  induction ys generalizing xs with
  | nil => rfl
  | cons y ys ih =>
      have hcomp : (before' · (f y)) ∘ f = (before · y) := funext fun a => h a y
      simp only [mergeBefore, List.map_cons, List.map_append, ih, List.takeWhile_map,
        List.dropWhile_map, hcomp]

theorem mem_mergeBefore_iff :
    x ∈ mergeBefore before xs ys ↔ x ∈ xs ∨ x ∈ ys := by
  induction ys generalizing xs with
  | nil => rw [mergeBefore, or_iff_left List.not_mem_nil]
  | cons y ys ih =>
      have hsplit : x ∈ xs ↔ x ∈ xs.takeWhile (before · y) ∨ x ∈ xs.dropWhile (before · y) := by
        rw [← List.mem_append, List.takeWhile_append_dropWhile]
      rw [mergeBefore, List.mem_append, List.mem_cons, ih, hsplit, List.mem_cons]
      tauto

/-- The first element precedes whatever it belongs before. -/
theorem sublist_mergeBefore (hy : y ∈ ys) (h : before x y = true) :
    [x, y].Sublist (mergeBefore before (x :: xs) ys) := by
  induction ys with
  | nil => cases hy
  | cons z ys ih =>
      rw [mergeBefore]
      cases hz : before x z with
      | true =>
          have htake : (x :: xs).takeWhile (before · z) = x :: xs.takeWhile (before · z) :=
            List.takeWhile_cons_of_pos hz
          rw [htake, List.cons_append]
          apply List.Sublist.cons_cons
          rw [List.singleton_sublist]
          rcases List.mem_cons.mp hy with rfl | hy
          · exact List.mem_append_right _ List.mem_cons_self
          · exact List.mem_append_right _ (List.mem_cons_of_mem _
              (mem_mergeBefore_iff.mpr (.inr hy)))
      | false =>
          rw [takeWhile_before hz, dropWhile_before hz, List.nil_append]
          apply List.Sublist.cons
          rcases List.mem_cons.mp hy with rfl | hy
          · rw [h] at hz
            cases hz
          · exact ih hy

/-- The first of the others precedes whatever does not belong before it. -/
theorem sublist_mergeBefore_cons (hx : x ∈ xs) (h : before x y = false) :
    [y, x].Sublist (mergeBefore before xs (y :: ys)) := by
  have hdrop : x ∈ xs.dropWhile (before · y) := by
    rw [← List.takeWhile_append_dropWhile (p := (before · y)) (l := xs)] at hx
    rcases List.mem_append.mp hx with htake | hdrop
    · have hbefore := List.mem_takeWhile_imp htake
      rw [h] at hbefore
      cases hbefore
    · exact hdrop
  rw [mergeBefore]
  apply List.Sublist.trans _ (List.sublist_append_right _ _)
  apply List.Sublist.cons_cons
  rw [List.singleton_sublist]
  exact mem_mergeBefore_iff.mpr (.inl hdrop)

theorem mergeBefore_nil (ys : List α) : mergeBefore before [] ys = ys := by
  induction ys with
  | nil => rfl
  | cons y ys ih => rw [mergeBefore, List.takeWhile_nil, List.dropWhile_nil, ih, List.nil_append]

/-- Elements that the first one does not belong before come first. -/
theorem mergeBefore_append (h : ∀ z ∈ ys, before x z = false) (zs : List α) :
    mergeBefore before (x :: xs) (ys ++ zs) = ys ++ mergeBefore before (x :: xs) zs := by
  induction ys with
  | nil => rfl
  | cons y ys ih =>
      obtain ⟨hy, hys⟩ := List.forall_mem_cons.mp h
      rw [List.cons_append, mergeBefore, takeWhile_before hy, dropWhile_before hy, ih hys]
      rfl

/-- All of them before all of the others. -/
theorem mergeBefore_eq_append (h : ∀ z ∈ xs, ∀ y ∈ ys, before z y = true) :
    mergeBefore before xs ys = xs ++ ys := by
  cases ys with
  | nil => rw [mergeBefore, List.append_nil]
  | cons y ys =>
      have hall : ∀ z ∈ xs, before z y = true := fun z hz => h z hz y List.mem_cons_self
      have hdrop : xs.dropWhile (before · y) = [] := List.dropWhile_eq_nil_iff.mpr hall
      have htake := List.takeWhile_append_dropWhile (p := (before · y)) (l := xs)
      rw [hdrop, List.append_nil] at htake
      rw [mergeBefore, htake, hdrop, mergeBefore_nil]

end

/-! ## Interleavings -/

/-- `zs` consists of the elements of `xs` and those of `ys`, each list in its order. -/
inductive Interleaving : List α → List α → List α → Prop
  | nil : Interleaving [] [] []
  | left {xs ys zs : List α} (x : α) :
      Interleaving xs ys zs → Interleaving (x :: xs) ys (x :: zs)
  | right {xs ys zs : List α} (y : α) :
      Interleaving xs ys zs → Interleaving xs (y :: ys) (y :: zs)

namespace Interleaving

theorem append_left {xs ys zs : List α} (h : Interleaving xs ys zs) (ws : List α) :
    Interleaving (ws ++ xs) ys (ws ++ zs) := by
  induction ws with
  | nil => exact h
  | cons w ws ih => exact .left w ih

theorem of_left (xs : List α) : Interleaving xs [] xs := by
  have h := append_left Interleaving.nil xs
  rwa [List.append_nil] at h

end Interleaving

theorem interleaving_mergeBefore (before : α → α → Bool) (xs ys : List α) :
    Interleaving xs ys (mergeBefore before xs ys) := by
  induction ys generalizing xs with
  | nil => exact .of_left xs
  | cons y ys ih =>
      have h := ((ih (xs.dropWhile (before · y))).right y).append_left
        (xs.takeWhile (before · y))
      rwa [List.takeWhile_append_dropWhile] at h

end BuilderShim.Foundation
