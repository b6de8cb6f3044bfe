/-
  Foundation/Total.lean --- programs that return among others that come to rest.

  `Triple` says what holds if a program returns.  `Total` says that it does: along
  every run, in whatever order the program and the others take their steps, it
  returns, and then `Q` holds.  The others may not go on for ever by themselves,
  and whenever the program has to wait one of them can move.

  A loop needs an invariant and a bound on its rounds; everything else about the
  answers is left to triples, which `total_and` adds.
-/
import BuilderShim.Foundation.Ending
import BuilderShim.Foundation.Lift
import Mathlib.Order.WellFounded

set_option autoImplicit false

namespace BuilderShim.Foundation

universe u v

variable {S T : Sig} {σ : Type u} {τ : Type v} {α β γ : Type}

/-- A step of the program or of the others. -/
def Mixed (E : Exec S σ) (R : σ → σ → Prop) (x y : Prog S α × σ) : Prop :=
  Step E x.1 x.2 y.1 y.2 ∨ (R x.2 y.2 ∧ y.1 = x.1)

/-- The program has returned, and `Q` holds. -/
def ReturnedIn (Q : α → σ → Prop) (x : Prog S α × σ) : Prop := ∃ a, x.1 = .ret a ∧ Q a x.2

/-- Along every run the program returns, and `Q` holds when it does. -/
inductive Returns (E : Exec S σ) (R : σ → σ → Prop) (Q : α → σ → Prop) : Prog S α → σ → Prop
  | ret {a : α} {s : σ} (h : Q a s) : Returns E R Q (.ret a) s
  | later {p : Prog S α} {s : σ} (hp : ∀ a, p ≠ .ret a) (hlive : ∃ y, Mixed E R (p, s) y)
      (hown : ∀ q t, Step E p s q t → Returns E R Q q t)
      (henv : ∀ t, R s t → Returns E R Q p t) : Returns E R Q p s

/-- From every state of `P` the program returns, in `Q`. -/
def Total (E : Exec S σ) (R : σ → σ → Prop) (P : σ → Prop) (p : Prog S α) (Q : α → σ → Prop) :
    Prop :=
  ∀ s, P s → Returns E R Q p s

section

variable {E : Exec S σ} {R : σ → σ → Prop} {P : σ → Prop} {Q : α → σ → Prop}

variable {p : Prog S α} {s : σ}

theorem Returns.inevitable (h : Returns E R Q p s) :
    Inevitable (Mixed E R) (ReturnedIn Q) (p, s) := by
  induction h with
  | ret h => exact .here ⟨_, rfl, h⟩
  | later _ hlive _ _ ihown ihenv =>
      refine .later hlive ?_
      rintro ⟨q, t⟩ (hstep | ⟨hR, hq⟩)
      · exact ihown q t hstep
      · obtain rfl : q = _ := hq
        exact ihenv t hR

theorem Returns.mono {Q' : α → σ → Prop} (h : Returns E R Q p s) (hQ : ∀ a t, Q a t → Q' a t) :
    Returns E R Q' p s := by
  induction h with
  | ret h => exact .ret (hQ _ _ h)
  | later hp hlive _ _ ihown ihenv => exact .later hp hlive ihown ihenv

theorem Returns.bind {f : α → Prog S β} {Q' : β → σ → Prop} (h : Returns E R Q p s)
    (hf : ∀ a t, Q a t → Returns E R Q' (f a) t) :
    Returns E R Q' (p.bind f) s := by
  induction h with
  | ret h => exact hf _ _ h
  | @later p s hp hlive _ _ ihown ihenv =>
      refine .later ?_ ?_ ?_ ihenv
      · intro b hb
        cases p with
        | ret a => exact hp a rfl
        | call op k => cases hb
        | iter b body k => cases hb
      · obtain ⟨⟨q, t⟩, hstep | ⟨hR, _⟩⟩ := hlive
        · exact ⟨(q.bind f, t), .inl (hstep.bind f)⟩
        · exact ⟨(p.bind f, t), .inr ⟨hR, rfl⟩⟩
      · intro q t hstep
        rcases hstep.of_bind with ⟨p', rfl, hp'⟩ | ⟨a, ha, _⟩
        · exact ihown p' t hp'
        · exact absurd ha (hp a)

/-! ## The rules -/

theorem total_ret {a : α} (h : ∀ s, P s → Q a s) : Total E R P (.ret a) Q :=
  fun s hs => .ret (h s hs)

theorem total_pre {P' : σ → Prop} (h : Total E R P p Q) (hP : ∀ s, P' s → P s) :
    Total E R P' p Q :=
  fun s hs => h s (hP s hs)

theorem total_bind {f : α → Prog S β} {Q' : β → σ → Prop} (hp : Total E R P p Q)
    (hf : ∀ a, Total E R (Q a) (f a) Q') : Total E R P (p.bind f) Q' :=
  fun s hs => (hp s hs).bind fun a t ht => hf a t ht

/-- An operation that is answered, or has somebody to wait for. -/
theorem total_call (hR : WellFounded fun t s => R s t) {op : S.Op} {k : S.Res op → Prog S α}
    {M : S.Res op → σ → Prop} (hst : Stable R P)
    (hlive : ∀ s, P s → (∃ r s', E op s r s') ∨ ∃ t, R s t)
    (hop : ∀ s r s', P s → E op s r s' → M r s') (hk : ∀ r, Total E R (M r) (k r) Q) :
    Total E R P (.call op k) Q := by
  intro s
  induction s using hR.induction with
  | _ s ih =>
      intro hs
      refine .later (fun a ha => by cases ha) ?_ ?_ fun t ht => ih t ht (hst s t ht hs)
      · rcases hlive s hs with ⟨r, s', hE⟩ | ⟨t, ht⟩
        · exact ⟨(k r, s'), .inl (.call hE)⟩
        · exact ⟨(.call op k, t), .inr ⟨ht, rfl⟩⟩
      · intro q t hstep
        cases hstep with
        | call hE => exact hk _ _ (hop s _ t hs hE)

theorem total_perform (hR : WellFounded fun t s => R s t) {op : S.Op}
    {Q : S.Res op → σ → Prop} (hst : Stable R P)
    (hlive : ∀ s, P s → (∃ r s', E op s r s') ∨ ∃ t, R s t)
    (hop : ∀ s r s', P s → E op s r s' → Q r s') : Total E R P (Prog.perform op) Q :=
  total_call hR hst hlive hop fun _ => total_ret fun _ h => h

/-- A loop whose rounds lower a bound that the others do not raise. -/
theorem total_iter (hR : WellFounded fun t s => R s t) {I : β → σ → Prop} (rank : β → σ → Nat)
    {b : β} {body : β → Prog S (β ⊕ γ)} {k : γ → Prog S α} {M : γ → σ → Prop}
    (hst : ∀ b s t, R s t → I b s → I b t ∧ rank b t ≤ rank b s)
    (hbody : ∀ b n, Total E R (fun s => I b s ∧ rank b s ≤ n) (body b)
      (Round (fun b' s => I b' s ∧ rank b' s < n) M))
    (hk : ∀ c, Total E R (M c) (k c) Q) : Total E R (I b) (.iter b body k) Q := by
  suffices h : ∀ n b s, I b s → rank b s ≤ n → Returns E R Q (.iter b body k) s from
    fun s hs => h _ b s hs (Nat.le_refl _)
  intro n
  induction n using Nat.strongRecOn with
  | _ n ih =>
      intro b s
      induction s using hR.induction with
      | _ s ihenv =>
          intro hs hn
          have hround : Step E (.iter b body k) s ((body b).bind (Prog.next body k)) s := .iter
          refine .later (fun a ha => by cases ha) ⟨(_, s), .inl hround⟩ ?_ ?_
          · intro q t hstep
            cases hstep with
            | iter =>
                refine (hbody b n s ⟨hs, hn⟩).bind fun x t hx => ?_
                cases x with
                | inl b' => exact ih _ hx.2 b' t hx.1 (Nat.le_refl _)
                | inr c => exact hk c t hx
          · intro t ht
            obtain ⟨hI, hle⟩ := hst b s t ht hs
            exact ihenv t ht hI (Nat.le_trans hle hn)

/-- What holds whenever the program returns holds when it does. -/
theorem total_and {G : σ → σ → Prop} {Q' : α → σ → Prop} (h : Triple E R G P p Q)
    (h' : Total E R P p Q') :
    Total E R P p fun a s => Q a s ∧ Q' a s := by
  intro s hs
  have hsafe := h s hs
  have hret := h' s hs
  clear h h' hs
  induction hret with
  | ret hq => exact .ret ⟨hsafe.ret, hq⟩
  | later hp hlive _ _ ihown ihenv =>
      exact .later hp hlive (fun q t hstep => ihown q t hstep (hsafe.step hstep).2)
        fun t ht => ihenv t ht (hsafe.env ht)

end

/-! ## Programs over one part of the state -/

section

variable {E : Exec S σ} {F : Exec T τ} {R : σ → σ → Prop} {R' : τ → τ → Prop}
variable {P : σ → Prop} {K : τ → Prop}

/-- One operation on the first part. -/
theorem total_left {op : S.Op} {M : S.Res op → σ → Prop}
    (hR : WellFounded fun t s => Either (Prod.fst : σ × τ → σ) Prod.snd R R' s t)
    (hP : Stable R P) (hK : Stable R' K) (hlive : ∀ s, P s → ∃ r s', E op s r s')
    (hop : ∀ s r s', P s → E op s r s' → M r s') :
    Total (Exec.join Prod.fst Prod.snd E F) (Either Prod.fst Prod.snd R R')
      (Both Prod.fst Prod.snd P K) (Prog.perform (S := S.sum T) (.inl op))
      fun r => Both Prod.fst Prod.snd (M r) K := by
  refine total_perform hR (hP.both hK) ?_ ?_
  · rintro ⟨s, t⟩ ⟨hs, _⟩
    obtain ⟨r, s', hE⟩ := hlive s hs
    exact .inl ⟨r, (s', t), hE, rfl⟩
  · rintro ⟨s, t⟩ r ⟨s', t'⟩ ⟨hs, ht⟩ ⟨hE, heq⟩
    exact ⟨hop s r s' hs hE, heq ▸ ht⟩

/-- One operation on the second part. -/
theorem total_right {op : T.Op} {M : T.Res op → τ → Prop}
    (hR : WellFounded fun t s => Either (Prod.fst : σ × τ → σ) Prod.snd R R' s t)
    (hP : Stable R P) (hK : Stable R' K)
    (hlive : ∀ t, K t → (∃ r t', F op t r t') ∨ ∃ t', R' t t')
    (hop : ∀ t r t', K t → F op t r t' → M r t') :
    Total (Exec.join Prod.fst Prod.snd E F) (Either Prod.fst Prod.snd R R')
      (Both Prod.fst Prod.snd P K) (Prog.perform (S := S.sum T) (.inr op))
      fun r => Both Prod.fst Prod.snd P (M r) := by
  refine total_perform hR (hP.both hK) ?_ ?_
  · rintro ⟨s, t⟩ ⟨_, ht⟩
    rcases hlive t ht with ⟨r, t', hF⟩ | ⟨t', hR'⟩
    · exact .inl ⟨r, (s, t'), hF, rfl⟩
    · exact .inr ⟨(s, t'), .inr ⟨hR', rfl⟩⟩
  · rintro ⟨s, t⟩ r ⟨s', t'⟩ ⟨hs, ht⟩ ⟨hF, heq⟩
    exact ⟨heq ▸ hs, hop t r t' ht hF⟩

/-- A program without loops, if its operations are answered and keep `P`. -/
theorem total_ends {A : S.Op → Prop} {p : Prog S α}
    (hR : WellFounded fun t s => Either (Prod.fst : σ × τ → σ) Prod.snd R R' s t)
    (hP : Stable R P) (hK : Stable R' K)
    (hlive : ∀ op, A op → ∀ s, P s → ∃ r s', E op s r s')
    (hop : ∀ op, A op → ∀ s r s', P s → E op s r s' → P s') (hp : p.Ends A) :
    Total (Exec.join Prod.fst Prod.snd E F) (Either Prod.fst Prod.snd R R')
      (Both Prod.fst Prod.snd P K) (p.inl T) fun _ => Both Prod.fst Prod.snd P K := by
  induction p with
  | ret a => exact total_ret fun _ h => h
  | call op k ih =>
      exact total_bind (total_left hR hP hK (hlive op hp.1) (hop op hp.1)) fun r => ih r (hp.2 r)
  | iter b body k _ _ => exact hp.elim

end

end BuilderShim.Foundation
