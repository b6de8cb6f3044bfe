/-
  Foundation/Loops.lean --- loops over a list that may stop with an error.

  A loop that carries a state is `List.foldlM`, one that makes a value of each element is
  `List.mapM`, with `none` for the error.  The rules take them apart at the last round, as
  an induction over what a loop has done so far needs it.
-/
import Mathlib.Data.List.Basic

set_option autoImplicit false

namespace BuilderShim.Foundation

universe u v

variable {α : Type u} {β : Type v}

/-- The last round of a loop. -/
theorem foldlM_snoc (f : β → α → Option β) (l : List α) (a : α) (b : β) :
    (l ++ [a]).foldlM f b = (l.foldlM f b).bind (f · a) := by
  rw [List.foldlM_append]
  simp only [List.foldlM_cons, List.foldlM_nil, bind_pure, Option.bind_eq_bind]

theorem foldlM_concat {f : β → α → Option β} {l : List α} {a : α} {b r : β} :
    (l ++ [a]).foldlM f b = some r ↔ ∃ b', l.foldlM f b = some b' ∧ f b' a = some r := by
  rw [foldlM_snoc, Option.bind_eq_some_iff]

/-- A loop over lists is one over their elements. -/
theorem foldlM_flatten {f : β → α → Option β} (ls : List (List α)) (b : β) :
    ls.foldlM (fun b l => l.foldlM f b) b = ls.flatten.foldlM f b := by
  induction ls generalizing b with
  | nil => rfl
  | cons l ls ih =>
      rw [List.foldlM_cons, List.flatten_cons, List.foldlM_append]
      exact bind_congr fun b' => ih b'

/-- What a loop that ends has made, and that it stopped at no element. -/
theorem mapM_eq_some {f : α → Option β} {l : List α} {l' : List β} (h : l.mapM f = some l') :
    (∀ b, b ∈ l' ↔ ∃ a ∈ l, f a = some b) ∧ ∀ a ∈ l, ∃ b, f a = some b := by
  induction l generalizing l' with
  | nil =>
      cases h
      exact ⟨fun b => by simp, fun _ ha => absurd ha List.not_mem_nil⟩
  | cons a l ih =>
      rw [List.mapM_cons] at h
      obtain ⟨b, hb, h⟩ := Option.bind_eq_some_iff.mp h
      obtain ⟨rest, hrest, h⟩ := Option.bind_eq_some_iff.mp h
      cases h
      obtain ⟨hmem, hall⟩ := ih hrest
      refine ⟨fun c => ?_, List.forall_mem_cons.mpr ⟨⟨b, hb⟩, hall⟩⟩
      rw [List.mem_cons, hmem, List.exists_mem_cons_iff, hb, Option.some_inj, eq_comm]

end BuilderShim.Foundation
