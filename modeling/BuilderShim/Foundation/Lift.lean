/-
  Foundation/Lift.lean --- programs over a state of two parts.

  A program over one signature is also one over a sum.  Each signature works on
  its own part of the state, `π` and `ρ`, and the others change one part at a
  time.  What is proved about a program on its part holds on the whole, and
  whatever is stable about the other part is kept.
-/
import BuilderShim.Foundation.Rely

set_option autoImplicit false

namespace BuilderShim.Foundation

universe u v w

variable {S T : Sig} {σ : Type u} {τ : Type v} {υ : Type w} {α : Type}

section

variable (π : υ → σ) (ρ : υ → τ)

/-- The operations of both signatures, each on its part. -/
def Exec.join (E : Exec S σ) (F : Exec T τ) : Exec (S.sum T) υ
  | .inl op, s, r, s' => E op (π s) r (π s') ∧ ρ s' = ρ s
  | .inr op, s, r, s' => F op (ρ s) r (ρ s') ∧ π s' = π s

/-- A step of the others, in one part. -/
def Either (R : σ → σ → Prop) (R' : τ → τ → Prop) (s s' : υ) : Prop :=
  (R (π s) (π s') ∧ ρ s' = ρ s) ∨ (R' (ρ s) (ρ s') ∧ π s' = π s)

/-- An assertion about each part. -/
def Both (P : σ → Prop) (K : τ → Prop) (s : υ) : Prop := P (π s) ∧ K (ρ s)

end

variable {π : υ → σ} {ρ : υ → τ} {E : Exec S σ} {F : Exec T τ}
variable {R G : σ → σ → Prop} {R' : τ → τ → Prop} {P : σ → Prop} {K : τ → Prop}

theorem Stable.both (hP : Stable R P) (hK : Stable R' K) :
    Stable (Either π ρ R R') (Both π ρ P K) := by
  rintro s s' (⟨hR, heq⟩ | ⟨hR, heq⟩) ⟨hp, hk⟩
  · exact ⟨hP _ _ hR hp, heq ▸ hk⟩
  · exact ⟨heq ▸ hp, hK _ _ hR hk⟩

theorem Stable.part (hP : Stable R P) : Stable (Either π ρ R R') fun s => P (π s) := by
  rintro s s' (⟨hR, _⟩ | ⟨_, heq⟩) hs
  · exact hP _ _ hR hs
  · exact heq ▸ hs

theorem Step.of_inl {p : Prog S α} {q : Prog (S.sum T) α} {s t : υ}
    (h : Step (Exec.join π ρ E F) (p.inl T) s q t) :
    ∃ p', q = p'.inl T ∧ Step E p (π s) p' (π t) ∧ ρ t = ρ s := by
  cases p with
  | ret a => cases h
  | call op k =>
      cases h with
      | call hE => exact ⟨_, rfl, .call hE.1, hE.2⟩
  | iter b body k =>
      cases h with
      | iter =>
          refine ⟨(body b).bind (Prog.next body k), ?_, .iter, rfl⟩
          rw [Prog.inl_bind]
          congr 1
          funext x
          cases x <;> rfl

/-- A run on the whole state is one on the part, and keeps the rest. -/
theorem Run.of_inl (hK : Stable R' K) {n : Nat} {p : Prog S α} {q : Prog (S.sum T) α} {s t : υ}
    (h : Run (Exec.join π ρ E F) (Either π ρ R R') n (p.inl T) s q t) (hs : K (ρ s)) :
    ∃ m p', q = p'.inl T ∧ Run E R m p (π s) p' (π t) ∧ K (ρ t) := by
  induction n generalizing p s with
  | zero =>
      cases h
      exact ⟨0, p, rfl, .refl, hs⟩
  | succ n ih =>
      cases h with
      | env hR rest =>
          rcases hR with ⟨hR, heq⟩ | ⟨hR, heq⟩
          · obtain ⟨m, p', hq, hrun, ht⟩ := ih rest (heq ▸ hs)
            exact ⟨m + 1, p', hq, .env hR hrun, ht⟩
          · obtain ⟨m, p', hq, hrun, ht⟩ := ih rest (hK _ _ hR hs)
            exact ⟨m, p', hq, heq ▸ hrun, ht⟩
      | own hstep rest =>
          obtain ⟨p', rfl, hstep', heq⟩ := hstep.of_inl
          obtain ⟨m, p'', hq, hrun, ht⟩ := ih rest (heq ▸ hs)
          exact ⟨m + 1, p'', hq, .own hstep' hrun, ht⟩

/-- What is proved of a program on its part holds on the whole. -/
theorem triple_inl {p : Prog S α} {Q : α → σ → Prop} (hK : Stable R' K)
    (h : Triple E R G P p Q) :
    Triple (Exec.join π ρ E F) (Either π ρ R R') (fun s s' => G (π s) (π s')) (Both π ρ P K)
      (p.inl T) fun a => Both π ρ (Q a) K := by
  intro s ⟨hs, hk⟩ n q t hrun
  obtain ⟨m, p', rfl, hrun', ht⟩ := hrun.of_inl hK hk
  refine ⟨fun q' t' hstep => ?_, fun a ha => ?_⟩
  · obtain ⟨p'', rfl, hstep', _⟩ := hstep.of_inl
    exact (h _ hs m p' _ hrun').1 p'' _ hstep'
  · cases p' with
    | ret b =>
        cases ha
        exact ⟨(h _ hs m _ _ hrun').2 a rfl, ht⟩
    | call op k => cases ha
    | iter b body k => cases ha

/-- One operation on the other part. -/
theorem triple_inr {op : T.Op} {M : T.Res op → τ → Prop} (hG : ∀ s, G s s) (hP : Stable R P)
    (hK : Stable R' K) (hM : ∀ r, Stable R' (M r))
    (h : ∀ t r t', K t → F op t r t' → M r t') :
    Triple (Exec.join π ρ E F) (Either π ρ R R') (fun s s' => G (π s) (π s')) (Both π ρ P K)
      (Prog.perform (S := S.sum T) (.inr op)) fun r => Both π ρ P (M r) := by
  refine triple_perform (hP.both hK) ?_ fun r => hP.both (hM r)
  intro s r s' ⟨hp, hk⟩ ⟨hF, heq⟩
  refine ⟨?_, ?_, h _ _ _ hk hF⟩
  · rw [heq]
    exact hG _
  · rw [heq]
    exact hp

end BuilderShim.Foundation
