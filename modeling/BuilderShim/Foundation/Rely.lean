/-
  Foundation/Rely.lean --- reasoning about a program among interfering ones.

  A program runs against an `Exec`; between any two of its steps others may
  change the state, by steps of a relation `R` (the rely).  `Triple E R G P p Q`
  says that from every state satisfying `P`, along every such run, each
  operation the program performs is a `G` step (the guarantee), and that the
  answer and the state in which it returns satisfy `Q`.

  The rules below are the ones a proof about a source function uses: one per
  program constructor, consequence, and the loop rule with its invariant.  An
  assertion that must survive interference is shown `Stable` once.
-/
import BuilderShim.Foundation.Prog

set_option autoImplicit false

namespace BuilderShim.Foundation

universe u v

variable {S : Sig} {σ : Type u} {α β γ : Type}

/-- A run of `n` steps, each taken by the program or by the others. -/
inductive Run (E : Exec S σ) (R : σ → σ → Prop) :
    Nat → Prog S α → σ → Prog S α → σ → Prop
  | refl {p : Prog S α} {s : σ} : Run E R 0 p s p s
  | env {n : Nat} {p q : Prog S α} {s s' t : σ} (h : R s s') (rest : Run E R n p s' q t) :
      Run E R (n + 1) p s q t
  | own {n : Nat} {p p' q : Prog S α} {s s' t : σ} (h : Step E p s p' s')
      (rest : Run E R n p' s' q t) : Run E R (n + 1) p s q t

variable {p : Prog S α} {s : σ} {Q Q' : α → σ → Prop} {P P' : σ → Prop}

/-- A run of `p.bind f` is still inside `p`, or `p` has returned on the way and
the rest is a run of the continuation, no longer than the whole. -/
theorem Run.of_bind {E : Exec S σ} {R : σ → σ → Prop} {n : Nat} {f : α → Prog S β} {q : Prog S β}
    {t : σ} (h : Run E R n (p.bind f) s q t) :
    (∃ p', q = p'.bind f ∧ Run E R n p s p' t) ∨
      ∃ a s' m k, m ≤ n ∧ Run E R m (f a) s' q t ∧ Run E R k p s (.ret a) s' := by
  induction n generalizing p s with
  | zero =>
      cases h
      exact .inl ⟨p, rfl, .refl⟩
  | succ n ih =>
      cases h with
      | env hR rest =>
          rcases ih rest with ⟨p', hq, hrun⟩ | ⟨a, s', m, k, hm, hrest, hrun⟩
          · exact .inl ⟨p', hq, .env hR hrun⟩
          · exact .inr ⟨a, s', m, k + 1, Nat.le_succ_of_le hm, hrest, .env hR hrun⟩
      | own hstep rest =>
          rcases hstep.of_bind with ⟨p', rfl, hp⟩ | ⟨a, rfl, ha⟩
          · rcases ih rest with ⟨p'', hq, hrun⟩ | ⟨a, s', m, k, hm, hrest, hrun⟩
            · exact .inl ⟨p'', hq, .own hp hrun⟩
            · exact .inr ⟨a, s', m, k + 1, Nat.le_succ_of_le hm, hrest, .own hp hrun⟩
          · exact .inr ⟨a, s, n + 1, 0, Nat.le_refl _, .own ha rest, .refl⟩

/-- Along every run each operation the program performs is a `G` step, and once
the program has returned its answer satisfies `Q`. -/
def Safe (E : Exec S σ) (R G : σ → σ → Prop) (p : Prog S α) (Q : α → σ → Prop)
    (s : σ) : Prop :=
  ∀ n q t, Run E R n p s q t →
    (∀ q' t', Step E q t q' t' → G t t') ∧ ∀ a, q = .ret a → Q a t

/-- An assertion the rely preserves. -/
def Stable (R : σ → σ → Prop) (P : σ → Prop) : Prop :=
  ∀ s s', R s s' → P s → P s'

/-- From `P`, under rely `R`, the program keeps to the guarantee `G` and returns
only in `Q`. -/
def Triple (E : Exec S σ) (R G : σ → σ → Prop) (P : σ → Prop) (p : Prog S α)
    (Q : α → σ → Prop) : Prop :=
  ∀ s, P s → Safe E R G p Q s

variable {E : Exec S σ} {R G : σ → σ → Prop}

theorem Safe.env {s' : σ} (h : Safe E R G p Q s) (hR : R s s') : Safe E R G p Q s' :=
  fun n q t hrun => h (n + 1) q t (.env hR hrun)

theorem Safe.step {p' : Prog S α} {s' : σ} (h : Safe E R G p Q s) (hstep : Step E p s p' s') :
    G s s' ∧ Safe E R G p' Q s' :=
  ⟨(h 0 p s .refl).1 p' s' hstep, fun n q t hrun => h (n + 1) q t (.own hstep hrun)⟩

theorem Safe.ret {a : α} (h : Safe E R G (.ret a) Q s) : Q a s :=
  (h 0 _ s .refl).2 a rfl

/-- What is left to do is safe at every state of a run. -/
theorem Safe.run {n : Nat} {q : Prog S α} {t : σ} (h : Safe E R G p Q s)
    (hrun : Run E R n p s q t) : Safe E R G q Q t := by
  induction hrun with
  | refl => exact h
  | env hR _ ih => exact ih (h.env hR)
  | own hstep _ ih => exact ih (h.step hstep).2

theorem Safe.mono (h : Safe E R G p Q s) (hQ : ∀ a t, Q a t → Q' a t) : Safe E R G p Q' s :=
  fun n q t hrun => ⟨(h n q t hrun).1, fun a ha => hQ a t ((h n q t hrun).2 a ha)⟩

/-- Fewer interferences to survive, more steps allowed. -/
theorem Safe.weaken {R' G' : σ → σ → Prop} (h : Safe E R G p Q s) (hR : ∀ s t, R' s t → R s t)
    (hG : ∀ s t, G s t → G' s t) :
    Safe E R' G' p Q s := by
  intro n q t hrun
  have hrun' : Run E R n p s q t := by
    clear h
    induction hrun with
    | refl => exact .refl
    | env hr _ ih => exact .env (hR _ _ hr) ih
    | own hstep _ ih => exact .own hstep ih
  exact ⟨fun q' t' hstep => hG _ _ ((h n q t hrun').1 q' t' hstep), (h n q t hrun').2⟩

/-! ## The rules -/

theorem triple_conseq (h : Triple E R G P p Q) (hP : ∀ s, P' s → P s) (hQ : ∀ a s, Q a s → Q' a s) :
    Triple E R G P' p Q' :=
  fun s hs => (h s (hP s hs)).mono hQ

theorem triple_pre (h : Triple E R G P p Q) (hP : ∀ s, P' s → P s) : Triple E R G P' p Q :=
  fun s hs => h s (hP s hs)

theorem triple_post (h : Triple E R G P p Q) (hQ : ∀ a s, Q a s → Q' a s) : Triple E R G P p Q' :=
  fun s hs => (h s hs).mono hQ

/-- A precondition that is a disjunction or an existential is split before the
program starts. -/
theorem triple_exists {ι : Sort v} {P : ι → σ → Prop} (h : ∀ i, Triple E R G (P i) p Q) :
    Triple E R G (fun s => ∃ i, P i s) p Q :=
  fun s ⟨i, hi⟩ => h i s hi

theorem triple_or (h : Triple E R G P p Q) (h' : Triple E R G P' p Q) :
    Triple E R G (fun s => P s ∨ P' s) p Q :=
  fun s hs => hs.elim (h s) (h' s)

theorem triple_pure {φ : Prop} (h : φ → Triple E R G P p Q) : Triple E R G (fun s => φ ∧ P s) p Q :=
  fun s hs => h hs.1 s hs.2

/-- What the precondition says about more than the state is kept. -/
theorem triple_fact {φ : Prop} (hφ : ∀ s, P s → φ) (h : φ → Triple E R G P p Q) :
    Triple E R G P p Q :=
  fun s hs => h (hφ s hs) s hs

theorem triple_ret {a : α} (hst : Stable R P) (h : ∀ s, P s → Q a s) :
    Triple E R G P (.ret a) Q := by
  intro s hs n q t hrun
  have key : q = .ret a ∧ P t := by
    induction n generalizing s with
    | zero =>
        cases hrun
        exact ⟨rfl, hs⟩
    | succ n ih =>
        cases hrun with
        | env hR rest => exact ih _ (hst _ _ hR hs) rest
        | own hstep _ => exact hstep.of_ret.elim
  refine ⟨fun q' t' hstep => ?_, fun b hb => ?_⟩
  · rw [key.1] at hstep
    exact hstep.of_ret.elim
  · have hab : a = b := by
      have := key.1.symm.trans hb
      injection this
    subst hab
    exact h t key.2

theorem triple_call {op : S.Op} {k : S.Res op → Prog S α} {M : S.Res op → σ → Prop}
    (hst : Stable R P) (hop : ∀ s r s', P s → E op s r s' → G s s' ∧ M r s')
    (hk : ∀ r, Triple E R G (M r) (k r) Q) : Triple E R G P (.call op k) Q := by
  intro s hs n q t hrun
  -- Interference before the call keeps `P`; the call itself leads to `M`.
  induction n generalizing s with
  | zero =>
      cases hrun
      refine ⟨fun q' t' hstep => ?_, fun a ha => by cases ha⟩
      cases hstep with
      | call hE => exact (hop _ _ _ hs hE).1
  | succ n ih =>
      cases hrun with
      | env hR rest => exact ih _ (hst _ _ hR hs) rest
      | own hstep rest =>
          cases hstep with
          | call hE => exact hk _ _ (hop _ _ _ hs hE).2 n q t rest

theorem triple_perform {op : S.Op} {Q : S.Res op → σ → Prop} (hst : Stable R P)
    (hop : ∀ s r s', P s → E op s r s' → G s s' ∧ Q r s') (hQ : ∀ r, Stable R (Q r)) :
    Triple E R G P (Prog.perform op) Q :=
  triple_call hst hop fun r => triple_ret (hQ r) fun _ h => h

theorem triple_bind {f : α → Prog S β} {M : α → σ → Prop} {Q : β → σ → Prop}
    (hp : Triple E R G P p M) (hf : ∀ a, Triple E R G (M a) (f a) Q) :
    Triple E R G P (p.bind f) Q := by
  intro s hs n q t hrun
  rcases hrun.of_bind with ⟨p', rfl, hrun'⟩ | ⟨a, s', m, k, _, hrest, hrun'⟩
  · have hsafe : Safe E R G p' M t := (hp s hs).run hrun'
    refine ⟨fun q' t' hstep => ?_, fun b hb => ?_⟩
    · rcases hstep.of_bind with ⟨p'', rfl, hp'⟩ | ⟨a, rfl, ha⟩
      · exact (hsafe.step hp').1
      · exact ((hf a t hsafe.ret).step ha).1
    · cases p' with
      | ret a => exact (hf a t hsafe.ret 0 _ t .refl).2 b hb
      | call op k => cases hb
      | iter b body k => cases hb
  · exact hf a s' ((hp s hs).run hrun').ret m q t hrest

/-- The answer is an error, or a value to go on with. -/
theorem triple_except {ε : Type} {p : Prog S (Except ε α)} {f : Except ε α → Prog S β}
    {M : Except ε α → σ → Prop} {Q : β → σ → Prop} (hp : Triple E R G P p M)
    (herror : ∀ e, Triple E R G (M (.error e)) (f (.error e)) Q)
    (hok : ∀ a, Triple E R G (M (.ok a)) (f (.ok a)) Q) : Triple E R G P (p.bind f) Q := by
  refine triple_bind hp fun r => ?_
  cases r with
  | error e => exact herror e
  | ok a => exact hok a

/-- After one round of a loop: the invariant again, or what holds when it is left. -/
def Round (I : β → σ → Prop) (M : γ → σ → Prop) : β ⊕ γ → σ → Prop
  | .inl b => I b
  | .inr c => M c

/-- The loop rule: an invariant, stable under interference, that each round
re-establishes or leaves with the precondition of what follows. -/
theorem triple_iter {I : β → σ → Prop} {b : β} {body : β → Prog S (β ⊕ γ)} {k : γ → Prog S α}
    {M : γ → σ → Prop} (hst : ∀ b, Stable R (I b)) (hG : ∀ s, G s s)
    (hbody : ∀ b, Triple E R G (I b) (body b) (Round I M)) (hk : ∀ c, Triple E R G (M c) (k c) Q) :
    Triple E R G (I b) (.iter b body k) Q := by
  intro s hs n q t hrun
  -- Strong induction on the length of the run: each round consumes a step.
  induction n using Nat.strongRecOn generalizing b s with
  | _ n ih =>
      cases hrun with
      | refl =>
          refine ⟨fun q' t' hstep => ?_, fun a ha => by cases ha⟩
          cases hstep with
          | iter => exact hG _
      | @env m _ _ _ _ _ hR rest =>
          exact ih m (Nat.lt_succ_self m) _ (hst b _ _ hR hs) rest
      | @own m _ _ _ _ _ _ hstep rest =>
          cases hstep with
          | iter =>
              rcases rest.of_bind with ⟨p', rfl, hrun'⟩ | ⟨x, s', m', j, hm', hrest, hrun'⟩
              · have hsafe := (hbody b s hs).run hrun'
                refine ⟨fun q' t' hstep => ?_, fun a ha => ?_⟩
                · rcases hstep.of_bind with ⟨p'', rfl, hp'⟩ | ⟨x, rfl, hx⟩
                  · exact (hsafe.step hp').1
                  · have hret := hsafe.ret
                    cases x with
                    | inl b' =>
                        cases hx with
                        | iter => exact hG t
                    | inr c => exact ((hk c t hret).step hx).1
                · cases p' with
                  | ret x =>
                      have hret := hsafe.ret
                      cases x with
                      | inl b' => cases ha
                      | inr c => exact (hk c t hret 0 _ t .refl).2 a ha
                  | call op k => cases ha
                  | iter b body k => cases ha
              · have hret := ((hbody b s hs).run hrun').ret
                cases x with
                | inl b' =>
                    exact ih m' (Nat.lt_succ_of_le hm') _ hret hrest
                | inr c => exact hk c s' hret m' q t hrest

/-! ## Stable assertions -/

theorem Stable.and (h : Stable R P) (h' : Stable R P') :
    Stable R fun s => P s ∧ P' s :=
  fun s s' hR hs => ⟨h s s' hR hs.1, h' s s' hR hs.2⟩

theorem Stable.or (h : Stable R P) (h' : Stable R P') :
    Stable R fun s => P s ∨ P' s :=
  fun s s' hR hs => hs.imp (h s s' hR) (h' s s' hR)

theorem Stable.exists {ι : Sort v} {P : ι → σ → Prop} (h : ∀ i, Stable R (P i)) :
    Stable R fun s => ∃ i, P i s :=
  fun s s' hR ⟨i, hi⟩ => ⟨i, h i s s' hR hi⟩

theorem Stable.const (φ : Prop) : Stable R fun _ => φ :=
  fun _ _ _ h => h

end BuilderShim.Foundation
