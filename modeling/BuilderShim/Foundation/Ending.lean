/-
  Foundation/Ending.lean --- programs that come to an end.

  A program that goes round no loop performs finitely many operations, whatever it
  is answered.  Run alone it returns, if each of its operations is always answered.
-/
import BuilderShim.Foundation.Machine
import BuilderShim.Foundation.Rely

set_option autoImplicit false

namespace BuilderShim.Foundation

universe u

variable {S : Sig} {σ : Type u} {α β : Type}

/-- The program goes round no loop, and calls only operations of `A`. -/
def Prog.Ends (A : S.Op → Prop) : {α : Type} → Prog S α → Prop
  | _, .ret _ => True
  | _, .call op k => A op ∧ ∀ r, (k r).Ends A
  | _, .iter _ _ _ => False

namespace Prog.Ends

variable {A : S.Op → Prop}

theorem ret (a : α) : (Prog.ret a : Prog S α).Ends A := trivial

theorem bind {p : Prog S α} {f : α → Prog S β} (hp : p.Ends A) (hf : ∀ a, (f a).Ends A) :
    (p.bind f).Ends A := by
  induction p with
  | ret a => exact hf a
  | call op k ih => exact ⟨hp.1, fun r => ih r (hp.2 r) hf⟩
  | iter b body k _ _ => exact hp.elim

theorem mono {B : S.Op → Prop} {p : Prog S α} (h : p.Ends A) (hAB : ∀ op, A op → B op) :
    p.Ends B := by
  induction p with
  | ret a => exact .ret a
  | call op k ih => exact ⟨hAB op h.1, fun r => ih r (h.2 r)⟩
  | iter b body k _ _ => exact h.elim

theorem perform {op : S.Op} (h : A op) : (Prog.perform op).Ends A := ⟨h, fun _ => trivial⟩

end Prog.Ends

/-- One step of a program that runs alone. -/
def Alone (E : Exec S σ) (x y : Prog S α × σ) : Prop := Step E x.1 x.2 y.1 y.2

/-- The program has returned. -/
def Returned (x : Prog S α × σ) : Prop := ∃ a, x.1 = .ret a

/-- A program without loops returns. -/
theorem Prog.Ends.returns {A : S.Op → Prop} {E : Exec S σ}
    (hA : ∀ op, A op → ∀ s, ∃ r s', E op s r s') {p : Prog S α} (hp : p.Ends A) (s : σ) :
    Inevitable (Alone E) Returned (p, s) := by
  induction p generalizing s with
  | ret a => exact .here ⟨a, rfl⟩
  | call op k ih =>
      obtain ⟨r, s', hE⟩ := hA op hp.1 s
      refine .later ⟨(k r, s'), .call hE⟩ fun y hy => ?_
      obtain ⟨q, t⟩ := y
      cases hy with
      | call hE' => exact ih _ (hp.2 _) _
  | iter b body k _ _ => exact hp.elim

end BuilderShim.Foundation
