/-
  Foundation/Prog.lean --- sequential programs that talk to an environment.

  A program is a tree of operation calls: it returns a value, performs one
  operation and continues with the answer, or runs a loop whose body says after
  each round whether to go on.  What an operation does is not part of the
  program; it is given by an `Exec`, a relation between the state before, the
  answer and the state after.  One source function is therefore written once and
  may be run alone, among interfering programs, or against a faulty environment.

  Nothing in this file mentions a particular set of operations.
-/
import Mathlib.Logic.Basic

set_option autoImplicit false

namespace BuilderShim.Foundation

universe u

/-- The operations a program may call and the type of each one's answer. -/
structure Sig where
  Op : Type
  Res : Op → Type

/-- A program over the operations of `S` that returns an `α`. -/
inductive Prog (S : Sig) : Type → Type 1
  | ret {α : Type} (a : α) : Prog S α
  | call {α : Type} (op : S.Op) (k : S.Res op → Prog S α) : Prog S α
  /-- The loop `body` from `b`: `.inl` goes round again, `.inr` leaves to `k`. -/
  | iter {α β γ : Type} (b : β) (body : β → Prog S (β ⊕ γ)) (k : γ → Prog S α) :
      Prog S α

namespace Prog

variable {S : Sig} {α β γ δ : Type}

/-- Run `p`, then continue with `f` on what it returned. -/
def bind : {α : Type} → Prog S α → (α → Prog S β) → Prog S β
  | _, .ret a, f => f a
  | _, .call op k, f => .call op fun r => (k r).bind f
  | _, .iter b body k, f => .iter b body fun c => (k c).bind f

instance : Monad (Prog S) where
  pure := .ret
  bind := bind

/-- Perform one operation and return its answer. -/
def perform (op : S.Op) : Prog S (S.Res op) := .call op .ret

/-- The loop alone, returning what its body leaves with. -/
def loop (b : β) (body : β → Prog S (β ⊕ γ)) : Prog S γ := .iter b body .ret

/-- What follows one round of a loop. -/
def next (body : β → Prog S (β ⊕ γ)) (k : γ → Prog S α) : β ⊕ γ → Prog S α
  | .inl b => .iter b body k
  | .inr c => k c

@[simp] theorem pure_eq (a : α) : (pure a : Prog S α) = .ret a := rfl

@[simp] theorem bind_eq (p : Prog S α) (f : α → Prog S β) : p >>= f = p.bind f := rfl

@[simp] theorem ret_bind (a : α) (f : α → Prog S β) : (Prog.ret a).bind f = f a := rfl

@[simp] theorem call_bind (op : S.Op) (k : S.Res op → Prog S α) (f : α → Prog S β) :
    (Prog.call op k).bind f = .call op fun r => (k r).bind f := rfl

@[simp] theorem iter_bind (b : β) (body : β → Prog S (β ⊕ γ)) (k : γ → Prog S α)
    (f : α → Prog S δ) :
    (Prog.iter b body k).bind f = .iter b body fun c => (k c).bind f := rfl

theorem bind_assoc (p : Prog S α) (f : α → Prog S β) (g : β → Prog S γ) :
    (p.bind f).bind g = p.bind fun a => (f a).bind g := by
  induction p with
  | ret a => rfl
  | call op k ih =>
      simp only [call_bind]
      congr 1
      funext r
      exact ih r f
  | iter b body k _ ih =>
      simp only [iter_bind]
      congr 1
      funext c
      exact ih c f

theorem next_bind (body : β → Prog S (β ⊕ γ)) (k : γ → Prog S α) (f : α → Prog S δ)
    (x : β ⊕ γ) : (next body k x).bind f = next body (fun c => (k c).bind f) x := by
  cases x <;> rfl

end Prog

/-- What the operations do: `E op s r s'` when `op`, called in `s`, may answer `r`
and leave `s'`. -/
abbrev Exec (S : Sig) (σ : Type u) : Type u :=
  (op : S.Op) → σ → S.Res op → σ → Prop

/-- One step of a program run alone.  Going round a loop is a silent step. -/
inductive Step {S : Sig} {σ : Type u} (E : Exec S σ) :
    {α : Type} → Prog S α → σ → Prog S α → σ → Prop
  | call {α : Type} {op : S.Op} {k : S.Res op → Prog S α} {s s' : σ} {r : S.Res op}
      (h : E op s r s') : Step E (.call op k) s (k r) s'
  | iter {α β γ : Type} {b : β} {body : β → Prog S (β ⊕ γ)} {k : γ → Prog S α} {s : σ} :
      Step E (.iter b body k) s ((body b).bind (Prog.next body k)) s

namespace Step

variable {S : Sig} {σ : Type u} {E : Exec S σ} {α β : Type}

theorem of_ret {a : α} {q : Prog S α} {s t : σ} (h : Step E (.ret a) s q t) : False := by
  cases h

/-- A step of `p.bind f` is a step of `p`, or `p` has returned and it is a step
of the continuation. -/
theorem of_bind {p : Prog S α} {f : α → Prog S β} {q : Prog S β} {s t : σ}
    (h : Step E (p.bind f) s q t) :
    (∃ p', q = p'.bind f ∧ Step E p s p' t) ∨ ∃ a, p = .ret a ∧ Step E (f a) s q t := by
  cases p with
  | ret a => exact .inr ⟨a, rfl, h⟩
  | call op k =>
      cases h with
      | call hE => exact .inl ⟨_, rfl, .call hE⟩
  | iter b body k =>
      cases h with
      | iter =>
          refine .inl ⟨(body b).bind (Prog.next body k), ?_, .iter⟩
          rw [Prog.bind_assoc]
          congr 1
          funext x
          exact (Prog.next_bind body k f x).symm

/-- More answers, more steps. -/
theorem mono {E' : Exec S σ} {p q : Prog S α} {s t : σ} (h : Step E p s q t)
    (hE : ∀ op s r s', E op s r s' → E' op s r s') : Step E' p s q t := by
  cases h with
  | call h => exact .call (hE _ _ _ _ h)
  | iter => exact .iter

theorem bind {p p' : Prog S α} {s t : σ} (f : α → Prog S β) (h : Step E p s p' t) :
    Step E (p.bind f) s (p'.bind f) t := by
  cases h with
  | call hE => exact .call hE
  | @iter _ _ b body k _ =>
      have hnext : ((body b).bind (Prog.next body k)).bind f =
          (body b).bind (Prog.next body fun c => (k c).bind f) := by
        rw [Prog.bind_assoc]
        congr 1
        funext x
        exact Prog.next_bind body k f x
      rw [hnext]
      exact .iter

end Step

/-- Programs over `S` extended with further operations: the sum of two signatures. -/
def Sig.sum (S T : Sig) : Sig where
  Op := S.Op ⊕ T.Op
  Res := fun
    | .inl op => S.Res op
    | .inr op => T.Res op

/-- A program over `S`, seen as one over a larger signature. -/
def Prog.inl {S : Sig} (T : Sig) : {α : Type} → Prog S α → Prog (S.sum T) α
  | _, .ret a => .ret a
  | _, .call op k => .call (S := S.sum T) (.inl op) fun r => (k r).inl T
  | _, .iter b body k => .iter b (fun b => (body b).inl T) fun c => (k c).inl T

theorem Prog.inl_bind {S : Sig} (T : Sig) {α β : Type} (p : Prog S α) (f : α → Prog S β) :
    (p.bind f).inl T = (p.inl T).bind fun a => (f a).inl T := by
  induction p with
  | ret a => rfl
  | call op k ih =>
      simp only [Prog.call_bind, Prog.inl]
      congr 1
      funext r
      exact ih r f
  | iter b body k _ ih =>
      simp only [Prog.iter_bind, Prog.inl]
      congr 1
      funext c
      exact ih c f

end BuilderShim.Foundation
