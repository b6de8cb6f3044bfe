/-
  Foundation/Preorder.lean --- listings of a tree, a directory before its entries.

  A place in a tree is the list of the names that lead to it.  In a listing each
  place is an entry of the last one, if that was a directory, or comes after one of
  the places the last one lies in, with a greater name.  Nothing else has to be
  remembered, so a listing is a chain; and the places of a listing increase in the
  lexicographic order.
-/
import Mathlib.Data.List.Basic

set_option autoImplicit false

namespace BuilderShim.Foundation

universe u

variable {κ : Type u} [LT κ]

/-- A place may come right after another one; the flag says whether that is a directory. -/
def Follows (prev : List κ × Bool) (place : List κ) : Prop :=
  ∃ parent name, place = parent ++ [name] ∧
    ((prev.1 = parent ∧ prev.2 = true) ∨ ∃ c rest, prev.1 = parent ++ c :: rest ∧ c < name)

/-- A listing, after a place. -/
def Listing (prev : List κ × Bool) (places : List (List κ × Bool)) : Prop :=
  List.IsChain (fun a b => Follows a b.1) (prev :: places)

namespace Listing

variable {prev : List κ × Bool}

theorem nil : Listing prev [] := List.IsChain.singleton _

theorem cons_iff {place : List κ × Bool} {places : List (List κ × Bool)} :
    Listing prev (place :: places) ↔ Follows prev place.1 ∧ Listing place places :=
  List.isChain_cons_cons

end Listing

theorem lex_append_singleton (front : List κ) (name : κ) : front < front ++ [name] := by
  induction front with
  | nil => exact List.Lex.nil
  | cons c front ih => exact List.Lex.cons ih

theorem lex_append_cons (front rest rest' : List κ) {c c' : κ} (h : c < c') :
    front ++ c :: rest < front ++ c' :: rest' := by
  induction front with
  | nil => exact List.Lex.rel h
  | cons c front ih => exact List.Lex.cons ih

/-- Every place is greater than the one it follows. -/
theorem Follows.lt {prev : List κ × Bool} {place : List κ} (h : Follows prev place) :
    prev.1 < place := by
  obtain ⟨parent, name, rfl, ⟨hprev, -⟩ | ⟨c, rest, hprev, hlt⟩⟩ := h
  · rw [hprev]
    exact lex_append_singleton parent name
  · rw [hprev]
    exact lex_append_cons parent rest [] hlt

/-- The places of a listing increase. -/
theorem Listing.pairwise [Trans (· < · : κ → κ → Prop) (· < ·) (· < ·)] {prev : List κ × Bool}
    {places : List (List κ × Bool)} (h : Listing prev places) :
    (prev :: places).Pairwise fun a b => a.1 < b.1 := by
  let R : List κ × Bool → List κ × Bool → Prop := fun a b => a.1 < b.1
  have htrans : Trans R R R := ⟨fun hab hbc => List.lt_trans hab hbc⟩
  have hchain : List.IsChain R (prev :: places) := List.IsChain.imp (fun _ _ hf => hf.lt) h
  exact hchain.pairwise

end BuilderShim.Foundation
