/-
  Foundation/Machine.lean --- systems of concurrent parts, as labelled steps.

  A system is a relation `step s e t`: in state `s` the event `e` may happen and
  lead to `t`.  Which events a run may use, and where, is a condition `C`, so that
  one system serves for every environment it is put in.

  The rules are the two an argument about all interleavings needs: what every
  allowed step keeps holds in every reachable state, and what no run can put off
  for ever happens (`Inevitable`), shown by a rank that every step lowers.
-/
import Mathlib.Logic.Relation

set_option autoImplicit false

namespace BuilderShim.Foundation

universe u v

variable {σ : Type u} {ε : Type v}

/-- One step by an allowed event. -/
def Moves (step : σ → ε → σ → Prop) (C : σ → ε → Prop) (s t : σ) : Prop :=
  ∃ e, C s e ∧ step s e t

/-- Any number of steps by allowed events. -/
def Reach (step : σ → ε → σ → Prop) (C : σ → ε → Prop) : σ → σ → Prop :=
  Relation.ReflTransGen (Moves step C)

namespace Reach

variable {step : σ → ε → σ → Prop} {C : σ → ε → Prop}

theorem refl (s : σ) : Reach step C s s := Relation.ReflTransGen.refl

theorem trans {s t w : σ} (h : Reach step C s t) (h' : Reach step C t w) : Reach step C s w :=
  Relation.ReflTransGen.trans h h'

theorem single {s t : σ} {e : ε} (hC : C s e) (h : step s e t) : Reach step C s t :=
  Relation.ReflTransGen.single ⟨e, hC, h⟩

theorem head {s t w : σ} {e : ε} (hC : C s e) (h : step s e t) (hrest : Reach step C t w) :
    Reach step C s w :=
  (single hC h).trans hrest

theorem tail {s t w : σ} {e : ε} (hrun : Reach step C s t) (hC : C t e) (h : step t e w) :
    Reach step C s w :=
  hrun.trans (single hC h)

/-- More events allowed, more states reachable. -/
theorem mono {C' : σ → ε → Prop} {s t : σ} (hC : ∀ s e, C s e → C' s e)
    (h : Reach step C s t) : Reach step C' s t :=
  Relation.ReflTransGen.mono (fun _ _ ⟨e, he, hs⟩ => ⟨e, hC _ e he, hs⟩) _ _ h

/-- What holds at the start and is kept by every allowed step holds at the end. -/
theorem invariant {I : σ → Prop} {s t : σ} (h : Reach step C s t) (hs : I s)
    (hI : ∀ s e t, I s → C s e → step s e t → I t) : I t := by
  induction h with
  | refl => exact hs
  | tail _ hstep ih =>
      obtain ⟨e, hC, hstep⟩ := hstep
      exact hI _ e _ ih hC hstep

/-- If every step lowers a rank, some run ends, in a state that no step leaves. -/
theorem exists_last (rank : σ → Nat)
    (hrank : ∀ s e t, C s e → step s e t → rank t < rank s) (s : σ) :
    ∃ t, Reach step C s t ∧ ∀ e w, C t e → ¬ step t e w := by
  induction hn : rank s using Nat.strongRecOn generalizing s with
  | _ n ih =>
      by_cases hmore : ∃ e w, C s e ∧ step s e w
      · obtain ⟨e, w, hC, hstep⟩ := hmore
        obtain ⟨t, hrun, ht⟩ := ih (rank w) (hn ▸ hrank s e w hC hstep) w rfl
        exact ⟨t, head hC hstep hrun, ht⟩
      · exact ⟨s, refl s, fun e w hC hstep => hmore ⟨e, w, hC, hstep⟩⟩

end Reach

/-! ## What no run can put off -/

/-- Along every run from `s` that goes on as long as it can, `P` holds at some point. -/
inductive Inevitable (R : σ → σ → Prop) (P : σ → Prop) : σ → Prop
  | here {s : σ} (h : P s) : Inevitable R P s
  | later {s : σ} (hstep : ∃ t, R s t) (hall : ∀ t, R s t → Inevitable R P t) :
      Inevitable R P s

namespace Inevitable

variable {R : σ → σ → Prop} {P : σ → Prop}

/-- An invariant under which every step lowers a rank, and under which some step is
possible as long as `P` does not hold. -/
theorem of_rank {I : σ → Prop} (rank : σ → Nat) (hI : ∀ s t, I s → R s t → I t)
    (hrank : ∀ s t, I s → R s t → rank t < rank s)
    (hlive : ∀ s, I s → ¬ P s → ∃ t, R s t) {s : σ} (hs : I s) : Inevitable R P s := by
  induction hn : rank s using Nat.strongRecOn generalizing s with
  | _ n ih =>
      by_cases hp : P s
      · exact .here hp
      · refine .later (hlive s hs hp) fun t hst => ?_
        exact ih (rank t) (hn ▸ hrank s t hs hst) (hI s t hs hst) rfl

theorem mono {Q : σ → Prop} (hPQ : ∀ s, P s → Q s) {s : σ} (h : Inevitable R P s) :
    Inevitable R Q s := by
  induction h with
  | here h => exact .here (hPQ _ h)
  | later hstep _ ih => exact .later hstep ih

theorem exists_run {s : σ} (h : Inevitable R P s) : ∃ t, Relation.ReflTransGen R s t ∧ P t := by
  induction h with
  | here h => exact ⟨_, .refl, h⟩
  | later hstep _ ih =>
      obtain ⟨t, ht⟩ := hstep
      obtain ⟨u, hrun, hu⟩ := ih t ht
      exact ⟨u, .head ht hrun, hu⟩

/-- The same of a system that takes the same steps. -/
theorem map {τ : Type v} {R' : τ → τ → Prop} {P' : τ → Prop} (f : σ → τ)
    (hstep : ∀ s t, R s t → R' (f s) (f t)) (hback : ∀ s t', R' (f s) t' → ∃ t, R s t ∧ t' = f t)
    (hP : ∀ s, P s → P' (f s)) {s : σ} (h : Inevitable R P s) : Inevitable R' P' (f s) := by
  induction h with
  | here h => exact .here (hP _ h)
  | later hlive _ ih =>
      obtain ⟨t, ht⟩ := hlive
      refine .later ⟨f t, hstep _ _ ht⟩ fun t' ht' => ?_
      obtain ⟨t, hst, rfl⟩ := hback _ t' ht'
      exact ih t hst

end Inevitable

end BuilderShim.Foundation
