/-
  Foundation/Trace.lean --- the operations a program performs, with their answers.

  `Trace p ops q` says that `p`, given these answers, has performed `ops` and
  become `q`.  There is no state here: what is said of all traces holds of every
  run, whatever the operations do.
-/
import BuilderShim.Foundation.Prog

set_option autoImplicit false

namespace BuilderShim.Foundation

/-- An operation and its answer. -/
abbrev Sig.Answered (S : Sig) : Type := (op : S.Op) × S.Res op

inductive Trace {S : Sig} {α : Type} : Prog S α → List S.Answered → Prog S α → Prop
  | refl (p : Prog S α) : Trace p [] p
  | call {op : S.Op} {k : S.Res op → Prog S α} {r : S.Res op} {ops : List S.Answered}
      {q : Prog S α} (h : Trace (k r) ops q) : Trace (.call op k) (⟨op, r⟩ :: ops) q
  | iter {β γ : Type} {b : β} {body : β → Prog S (β ⊕ γ)} {k : γ → Prog S α}
      {ops : List S.Answered} {q : Prog S α}
      (h : Trace ((body b).bind (Prog.next body k)) ops q) : Trace (.iter b body k) ops q

namespace Trace

variable {S : Sig} {α β : Type}

theorem of_ret {a : α} {ops : List S.Answered} {q : Prog S α} (h : Trace (.ret a) ops q) :
    ops = [] ∧ q = .ret a := by
  cases h
  exact ⟨rfl, rfl⟩

theorem of_perform {op : S.Op} {ops : List S.Answered} {q : Prog S (S.Res op)}
    (h : Trace (Prog.perform op) ops q) :
    (ops = [] ∧ q = Prog.perform op) ∨ ∃ r, ops = [⟨op, r⟩] ∧ q = .ret r := by
  cases h with
  | refl => exact .inl ⟨rfl, rfl⟩
  | @call _ _ r _ _ h =>
      obtain ⟨rfl, rfl⟩ := h.of_ret
      exact .inr ⟨r, rfl, rfl⟩

theorem bind {p : Prog S α} {f : α → Prog S β} {before after : List S.Answered} {a : α}
    {q : Prog S β} (h : Trace p before (.ret a)) (h' : Trace (f a) after q) :
    Trace (p.bind f) (before ++ after) q := by
  generalize hx : Prog.ret a = x at h
  induction h with
  | refl =>
      subst hx
      exact h'
  | call _ ih => exact .call (ih hx)
  | @iter _ _ b body k _ _ _ ih =>
      have hassoc : ((body b).bind (Prog.next body k)).bind f =
          (body b).bind (Prog.next body fun c => (k c).bind f) := by
        rw [Prog.bind_assoc]
        congr 1
        funext y
        exact Prog.next_bind body k f y
      exact .iter (hassoc ▸ ih hx)

/-- A trace of `p.bind f` stops in `p`, or `p` has returned and the rest is a trace of what
follows. -/
theorem of_bind {p : Prog S α} {f : α → Prog S β} {ops : List S.Answered} {q : Prog S β}
    (h : Trace (p.bind f) ops q) :
    (∃ p', Trace p ops p' ∧ ∀ b, q ≠ .ret b) ∨
      ∃ a before after, ops = before ++ after ∧ Trace p before (.ret a) ∧ Trace (f a) after q := by
  generalize hx : p.bind f = x at h
  induction h generalizing p with
  | refl =>
      subst hx
      cases p with
      | ret a => exact .inr ⟨a, [], [], rfl, .refl _, .refl _⟩
      | call op k => exact .inl ⟨_, .refl _, nofun⟩
      | iter b body k => exact .inl ⟨_, .refl _, nofun⟩
  | @call op k r ops q h ih =>
      cases p with
      | ret a =>
          rw [Prog.ret_bind] at hx
          exact .inr ⟨a, [], _, rfl, .refl _, hx ▸ .call h⟩
      | call op' k' =>
          cases hx
          rcases ih rfl with ⟨p', htrace, hq⟩ | ⟨a, before, after, rfl, hret, hrest⟩
          · exact .inl ⟨p', .call htrace, hq⟩
          · exact .inr ⟨a, _, after, rfl, .call hret, hrest⟩
      | iter b body k' => cases hx
  | @iter _ _ b body k ops q h ih =>
      cases p with
      | ret a =>
          rw [Prog.ret_bind] at hx
          exact .inr ⟨a, [], _, rfl, .refl _, hx ▸ .iter h⟩
      | call op' k' => cases hx
      | iter b' body' k' =>
          cases hx
          have hassoc : ((body b).bind (Prog.next body k')).bind f =
              (body b).bind (Prog.next body fun c => (k' c).bind f) := by
            rw [Prog.bind_assoc]
            congr 1
            funext y
            exact Prog.next_bind body k' f y
          rcases ih hassoc with ⟨p', htrace, hq⟩ | ⟨a, before, after, rfl, hret, hrest⟩
          · exact .inl ⟨p', .iter htrace, hq⟩
          · exact .inr ⟨a, before, after, rfl, .iter hret, hrest⟩

end Trace

end BuilderShim.Foundation
