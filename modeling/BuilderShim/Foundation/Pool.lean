/-
  Foundation/Pool.lean --- any number of programs over one state.

  A pool has a program for every index.  In each step one of them moves, or one
  of them is killed; a program that never moves has not been started.  If every
  program is safe under what the others guarantee, it stays so in every
  reachable state, and every step of the pool is a guaranteed one.
-/
import Mathlib.Logic.Relation
import Mathlib.Logic.Function.Basic
import BuilderShim.Foundation.Rely

set_option autoImplicit false

namespace BuilderShim.Foundation

universe u

variable {S : Sig} {σ : Type u} {ι α : Type} [DecidableEq ι]

/-- The programs still running, and the state they share. -/
structure Pool (S : Sig) (σ : Type u) (ι α : Type) where
  threads : ι → Option (Prog S α)
  state : σ

/-- One of the programs moves, or is killed. -/
inductive PoolStep (E : ι → Exec S σ) (kill : ι → σ → σ → Prop) :
    Pool S σ ι α → Pool S σ ι α → Prop
  | move {c : Pool S σ ι α} {i : ι} {p p' : Prog S α} {s' : σ} (hi : c.threads i = some p)
      (h : Step (E i) p c.state p' s') :
      PoolStep E kill c ⟨Function.update c.threads i (some p'), s'⟩
  | die {c : Pool S σ ι α} {i : ι} {p : Prog S α} {s' : σ} (hi : c.threads i = some p)
      (h : kill i c.state s') : PoolStep E kill c ⟨Function.update c.threads i none, s'⟩

/-- A pool that can be reached. -/
def PoolRun (E : ι → Exec S σ) (kill : ι → σ → σ → Prop) :
    Pool S σ ι α → Pool S σ ι α → Prop :=
  Relation.ReflTransGen (PoolStep E kill)

/-- What the programs other than `i` may do. -/
def Others (G : ι → σ → σ → Prop) (i : ι) (s s' : σ) : Prop := ∃ j, j ≠ i ∧ G j s s'

section

variable {E : ι → Exec S σ} {kill : ι → σ → σ → Prop} {G : ι → σ → σ → Prop}
variable {Q : ι → α → σ → Prop}

/-- Every program left in the pool is safe among the others. -/
def AllSafe (E : ι → Exec S σ) (G : ι → σ → σ → Prop) (Q : ι → α → σ → Prop)
    (c : Pool S σ ι α) : Prop :=
  ∀ i p, c.threads i = some p → Safe (E i) (Others G i) (G i) p (Q i) c.state

theorem AllSafe.step (hkill : ∀ i s s', kill i s s' → G i s s') {c c' : Pool S σ ι α}
    (h : AllSafe E G Q c) (hstep : PoolStep E kill c c') :
    (∃ i, G i c.state c'.state) ∧ AllSafe E G Q c' := by
  cases hstep with
  | @move i p p' s' hi hs =>
      obtain ⟨hG, hsafe⟩ := (h i p hi).step hs
      refine ⟨⟨i, hG⟩, fun j q hj => ?_⟩
      simp only at hj
      by_cases hji : j = i
      · subst hji
        rw [Function.update_self] at hj
        cases hj
        exact hsafe
      · rw [Function.update_of_ne hji] at hj
        exact (h j q hj).env ⟨i, Ne.symm hji, hG⟩
  | @die i p s' hi hs =>
      have hG := hkill i _ _ hs
      refine ⟨⟨i, hG⟩, fun j q hj => ?_⟩
      simp only at hj
      by_cases hji : j = i
      · subst hji
        rw [Function.update_self] at hj
        cases hj
      · rw [Function.update_of_ne hji] at hj
        exact (h j q hj).env ⟨i, Ne.symm hji, hG⟩

/-- Safe programs stay safe along every run of the pool. -/
theorem AllSafe.run (hkill : ∀ i s s', kill i s s' → G i s s') {c c' : Pool S σ ι α}
    (h : AllSafe E G Q c) (hrun : PoolRun E kill c c') : AllSafe E G Q c' := by
  induction hrun with
  | refl => exact h
  | tail _ hstep ih => exact (ih.step hkill hstep).2

/-- More may be known of one of the programs than at the start. -/
theorem AllSafe.update {c : Pool S σ ι α} (h : AllSafe E G Q c) {i : ι} (Q' : α → σ → Prop)
    (hi : ∀ p, c.threads i = some p → Safe (E i) (Others G i) (G i) p Q' c.state) :
    AllSafe E G (Function.update Q i Q') c := by
  intro j p hj
  by_cases hji : j = i
  · subst hji
    rw [Function.update_self]
    exact hi p hj
  · rw [Function.update_of_ne hji]
    exact h j p hj

/-- One of the programs runs while the others rest. -/
theorem PoolRun.of_run {β : Type} {f : β → Prog S α} {i : ι} {n : Nat} {p p' : Prog S β} {s s' : σ}
    (h : Run (E i) (fun _ _ => False) n p s p' s') {c : Pool S σ ι α}
    (hi : c.threads i = some (p.bind f)) (hs : c.state = s) :
    PoolRun E kill c ⟨Function.update c.threads i (some (p'.bind f)), s'⟩ := by
  induction h generalizing c with
  | refl =>
      rw [← hi, Function.update_eq_self, ← hs]
      exact .refl
  | env hfalse => exact hfalse.elim
  | own hstep _ ih =>
      subst hs
      have hrest := ih (c := ⟨Function.update c.threads i (some _), _⟩)
        (Function.update_self ..) rfl
      rw [Function.update_idem] at hrest
      exact .head (.move hi (hstep.bind f)) hrest

/-- What every guaranteed step preserves holds along every run. -/
theorem AllSafe.invariant (hkill : ∀ i s s', kill i s s' → G i s s') {I : σ → Prop}
    (hI : ∀ i s s', G i s s' → I s → I s') {c c' : Pool S σ ι α} (h : AllSafe E G Q c)
    (hrun : PoolRun E kill c c') (hc : I c.state) : I c'.state := by
  induction hrun with
  | refl => exact hc
  | tail hrun hstep ih =>
      obtain ⟨⟨i, hG⟩, _⟩ := (h.run hkill hrun).step hkill hstep
      exact hI i _ _ hG ih

end

end BuilderShim.Foundation
