/-
  Foundation/Tasks.lean --- a growing list of tasks over one shared state.

  One task moves at a time, by a local step that sees the shared state and itself;
  it may start new tasks, which join at the end of the list.  An assertion about
  each task, together with one about the shared state, is an invariant of the
  whole if the moving task re-establishes it and does not disturb the others.
-/
import Mathlib.Algebra.Order.BigOperators.Group.List
import Mathlib.Algebra.GroupWithZero.Nat
import Mathlib.Algebra.Order.Group.Nat
import BuilderShim.Foundation.Machine

set_option autoImplicit false

namespace BuilderShim.Foundation

universe u v w

variable {σ : Type u} {τ : Type v} {ε : Type w}

/-- The shared state, and the tasks in the order they were started. -/
structure Tasks (σ : Type u) (τ : Type v) where
  shared : σ
  tasks : List τ

/-- A local step: the shared state and the task, the event, what becomes of the two, and
the tasks that are started. -/
abbrev LocalStep (σ : Type u) (τ : Type v) (ε : Type w) : Type (max u v w) :=
  σ → τ → ε → σ → τ → List τ → Prop

/-- One of the tasks moves. -/
inductive TaskStep (step : LocalStep σ τ ε) : Tasks σ τ → ε → Tasks σ τ → Prop
  | mk (before after : List τ) {sh sh' : σ} {new : List τ} {t t' : τ} {e : ε}
      (h : step sh t e sh' t' new) :
      TaskStep step ⟨sh, before ++ t :: after⟩ e ⟨sh', before ++ t' :: after ++ new⟩

namespace TaskStep

variable {step : LocalStep σ τ ε} {s s' : Tasks σ τ} {e : ε}

/-- A step that starts no task. -/
theorem single {sh sh' : σ} {t t' : τ} (before after : List τ) (h : step sh t e sh' t' []) :
    TaskStep step ⟨sh, before ++ t :: after⟩ e ⟨sh', before ++ t' :: after⟩ := by
  have hstep := TaskStep.mk before after h
  rwa [List.append_nil] at hstep

/-- It is one of the tasks that moves. -/
theorem exists_mem (hstep : TaskStep step s e s') :
    ∃ t ∈ s.tasks, ∃ sh' t' new, step s.shared t e sh' t' new := by
  cases hstep with
  | mk before after h => exact ⟨_, List.mem_append_right _ (List.mem_cons_self ..), _, _, _, h⟩

/-- A task that can move can do so wherever it stands in the list. -/
theorem of_mem {sh' : σ} {t t' : τ} {new : List τ} (ht : t ∈ s.tasks)
    (h : step s.shared t e sh' t' new) : ∃ s', TaskStep step s e s' := by
  obtain ⟨before, after, hsplit⟩ := List.append_of_mem ht
  refine ⟨⟨sh', before ++ t' :: after ++ new⟩, ?_⟩
  have := TaskStep.mk before after h
  rwa [← hsplit] at this

/-- What the tasks are, apart from where they have got to, only grows. -/
theorem map_grows {κ : Type*} {key : τ → κ} (hstep : TaskStep step s e s')
    (hkey : ∀ {sh t sh' t' new}, step sh t e sh' t' new → key t' = key t) :
    s.tasks.map key <+: s'.tasks.map key := by
  cases hstep with
  | @mk before after sh sh' new t t' _ h =>
      refine ⟨new.map key, ?_⟩
      simp only [List.map_append, List.map_cons, hkey h]

/-- A task that is at one place in the list moves, or stays as it is. -/
theorem getElem? (hstep : TaskStep step s e s') {i : Nat} {t : τ} (hi : s.tasks[i]? = some t) :
    s'.tasks[i]? = some t ∨
      ∃ t' new, step s.shared t e s'.shared t' new ∧ s'.tasks[i]? = some t' := by
  cases hstep with
  | @mk before after sh sh' new u u' _ h =>
      simp only [List.append_assoc, List.cons_append] at hi ⊢
      rcases Nat.lt_trichotomy i before.length with hlt | rfl | hlt
      · rw [List.getElem?_append_left hlt] at hi ⊢
        exact .inl hi
      · simp only [List.getElem?_append_right (Nat.le_refl _), Nat.sub_self,
          List.getElem?_cons_zero, Option.some.injEq] at hi ⊢
        subst hi
        exact .inr ⟨u', new, h, rfl⟩
      · refine .inl ?_
        obtain ⟨k, hk⟩ : ∃ k, i - before.length = k + 1 := ⟨i - before.length - 1, by omega⟩
        rw [List.getElem?_append_right (by omega), hk, List.getElem?_cons_succ] at hi ⊢
        obtain ⟨hlen, -⟩ := List.getElem?_eq_some_iff.mp hi
        rw [List.getElem?_append_left hlen]
        exact hi

end TaskStep

/-- Only tasks of one kind move. -/
def LocalStep.only (step : LocalStep σ τ ε) (P : τ → Prop) : LocalStep σ τ ε :=
  fun sh t e sh' t' new => P t ∧ step sh t e sh' t' new

theorem TaskStep.of_only {step : LocalStep σ τ ε} {P : τ → Prop} {s s' : Tasks σ τ} {e : ε}
    (h : TaskStep (LocalStep.only step P) s e s') : TaskStep step s e s' := by
  cases h with
  | mk before after h => exact .mk before after h.2

/-- The shared state and every task are as asserted. -/
structure Tasks.All (I : σ → Prop) (T : σ → τ → Prop) (s : Tasks σ τ) : Prop where
  shared : I s.shared
  task : ∀ t ∈ s.tasks, T s.shared t

/-- The moving task keeps the assertion about itself and about what it starts, and the
one about every other task. -/
theorem Tasks.All.step {step : LocalStep σ τ ε} {I : σ → Prop} {T : σ → τ → Prop}
    {s s' : Tasks σ τ} {e : ε} (h : s.All I T) (hstep : TaskStep step s e s')
    (hown : ∀ {sh t sh' t' new}, I sh → T sh t → step sh t e sh' t' new →
      I sh' ∧ T sh' t' ∧ ∀ u ∈ new, T sh' u)
    (hothers : ∀ {sh t sh' t' new u}, I sh → T sh t → step sh t e sh' t' new →
      T sh u → T sh' u) : s'.All I T := by
  cases hstep with
  | @mk before after sh sh' new t t' _ hlocal =>
      have ht : T sh t := h.task t (by simp)
      obtain ⟨hI, ht', hnew⟩ := hown h.shared ht hlocal
      refine ⟨hI, fun u hu => ?_⟩
      simp only [List.append_assoc, List.cons_append, List.mem_append, List.mem_cons] at hu
      rcases hu with hu | rfl | hu | hu
      · exact hothers h.shared ht hlocal (h.task u (by simp [hu]))
      · exact ht'
      · exact hothers h.shared ht hlocal (h.task u (by simp [hu]))
      · exact hnew u hu

/-- The weights of the tasks, added up. -/
def Tasks.weight (f : τ → Nat) (s : Tasks σ τ) : Nat := (s.tasks.map f).sum

theorem Tasks.le_weight {f : τ → Nat} {s : Tasks σ τ} {t : τ} (h : t ∈ s.tasks) :
    f t ≤ s.weight f :=
  List.single_le_sum (fun _ _ => Nat.zero_le _) _ (List.mem_map_of_mem h)

theorem Tasks.exists_pos {f : τ → Nat} {s : Tasks σ τ} (h : 0 < s.weight f) :
    ∃ t ∈ s.tasks, 0 < f t := by
  obtain ⟨n, hn, hpos⟩ := List.sum_pos_iff_exists_pos_nat.mp h
  obtain ⟨t, ht, rfl⟩ := List.mem_map.mp hn
  exact ⟨t, ht, hpos⟩

theorem Tasks.weight_eq_zero {f : τ → Nat} {s : Tasks σ τ} :
    s.weight f = 0 ↔ ∀ t ∈ s.tasks, f t = 0 := by
  constructor
  · intro h t ht
    have := Tasks.le_weight (f := f) ht
    omega
  · intro h
    by_contra hne
    obtain ⟨t, ht, hpos⟩ := Tasks.exists_pos (Nat.pos_of_ne_zero hne)
    have := h t ht
    omega

theorem Tasks.weight_mono {f g : τ → Nat} (hle : ∀ t, f t ≤ g t) (s : Tasks σ τ) :
    s.weight f ≤ s.weight g :=
  List.sum_le_sum fun t _ => hle t

/-- A counter in the shared state is the weight of the tasks, if every step changes the one
by as much as the other. -/
theorem Tasks.weight_eq {step : LocalStep σ τ ε} {f : τ → Nat} {g : σ → Nat} {s s' : Tasks σ τ}
    {e : ε} (hstep : TaskStep step s e s') (hs : g s.shared = s.weight f)
    (hlocal : ∀ {t sh' t' new}, f t ≤ g s.shared → step s.shared t e sh' t' new →
      g sh' + f t = g s.shared + f t' + (new.map f).sum) : g s'.shared = s'.weight f := by
  have hle := fun t => Tasks.le_weight (f := f) (s := s) (t := t)
  cases hstep with
  | @mk before after sh sh' new t t' _ h =>
      have ht := hle t (by simp)
      have hbal := hlocal (by rw [hs]; exact ht) h
      dsimp only at hs hbal
      simp only [Tasks.weight, List.map_append, List.map_cons, List.sum_append, List.sum_cons]
        at hs ⊢
      omega

/-- A budget that the shared state and the tasks draw on: what a local step saves is saved. -/
theorem Tasks.budget_le {step : LocalStep σ τ ε} {f : τ → Nat} {g : σ → Nat} {s s' : Tasks σ τ}
    {e : ε} (k : Nat) (hstep : TaskStep step s e s')
    (hlocal : ∀ {t sh' t' new}, step s.shared t e sh' t' new →
      g sh' + f t' + (new.map f).sum + k ≤ g s.shared + f t) :
    g s'.shared + s'.weight f + k ≤ g s.shared + s.weight f := by
  cases hstep with
  | @mk before after sh sh' new t t' _ h =>
      have hbal := hlocal h
      dsimp only at hbal
      simp only [Tasks.weight, List.map_append, List.map_cons, List.sum_append, List.sum_cons]
      omega

/-- If a task gives up more weight than it puts into the tasks it starts, the whole gets
lighter. -/
theorem Tasks.weight_lt {step : LocalStep σ τ ε} {f : τ → Nat} {s s' : Tasks σ τ} {e : ε}
    (hstep : TaskStep step s e s')
    (hlt : ∀ {t sh' t' new}, t ∈ s.tasks → step s.shared t e sh' t' new →
      f t' + (new.map f).sum < f t) : s'.weight f < s.weight f := by
  cases hstep with
  | @mk before after sh sh' new t t' _ hlocal =>
      have := hlt (t := t) (by simp) hlocal
      simp only [Tasks.weight, List.map_append, List.map_cons, List.sum_append, List.sum_cons]
      omega

end BuilderShim.Foundation
