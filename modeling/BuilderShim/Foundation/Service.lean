/-
  Foundation/Service.lean --- requests that are served piece by piece.

  Whoever asks for `i` is to be sent `want i`, in non-empty pieces and closed by an
  empty one.  Requests are served in any order, and their pieces may alternate.  A
  lossy service may also give a request up.

  What was sent for a request is always the beginning of what is to be sent, and the
  whole of it once the request is done with (`Sound`).
-/
import Mathlib.Data.List.Nodup
import Mathlib.Logic.Relation

set_option autoImplicit false

namespace BuilderShim.Foundation

universe u v

/-- The requests, those of them that are being served with what is left to send, and what was
sent. -/
structure Service (ι : Type u) (β : Type v) where
  asked : List ι
  jobs : List (ι × List β)
  out : List (ι × List β)

namespace Service

variable {ι : Type u} {β : Type v} (want : ι → List β) (lossy : Prop)

inductive Step : Service ι β → Service ι β → Prop
  | reorder {s : Service ι β} {jobs : List (ι × List β)} (h : s.jobs.Perm jobs) :
      Step s { s with jobs := jobs }
  | ask {s : Service ι β} (i : ι) (hnew : i ∉ s.asked) :
      Step s { s with asked := s.asked ++ [i], jobs := (i, want i) :: s.jobs }
  | piece {s : Service ι β} {i : ι} {left : List β} {rest : List (ι × List β)} (n : Nat)
      (hpos : 0 < n) (hle : n ≤ left.length) (hjobs : s.jobs = (i, left) :: rest) :
      Step s { s with jobs := (i, left.drop n) :: rest, out := s.out ++ [(i, left.take n)] }
  | finish {s : Service ι β} {i : ι} {rest : List (ι × List β)} (hjobs : s.jobs = (i, []) :: rest) :
      Step s { s with jobs := rest, out := s.out ++ [(i, [])] }
  | drop {s : Service ι β} {job : ι × List β} {rest : List (ι × List β)} (hlossy : lossy)
      (hjobs : s.jobs = job :: rest) : Step s { s with jobs := rest }

/-- The whole of what is to be sent: non-empty pieces, and an empty one. -/
def Served (content : List β) (pieces : List (List β)) : Prop :=
  ∃ front, pieces = front ++ [[]] ∧ [] ∉ front ∧ front.flatten = content

/-- A beginning of it, with `left` to come. -/
def Partly (content left : List β) (pieces : List (List β)) : Prop :=
  [] ∉ pieces ∧ pieces.flatten ++ left = content

theorem Partly.start (content : List β) : Partly content content [] :=
  ⟨List.not_mem_nil, rfl⟩

theorem Partly.piece {content left : List β} {pieces : List (List β)}
    (h : Partly content left pieces) {n : Nat} (hpos : 0 < n) (hle : n ≤ left.length) :
    Partly content (left.drop n) (pieces ++ [left.take n]) := by
  obtain ⟨hne, heq⟩ := h
  constructor
  · rw [List.mem_append, List.mem_singleton]
    rintro (hmem | hnil)
    · exact hne hmem
    · have hlen := congrArg List.length hnil
      rw [List.length_take, List.length_nil] at hlen
      omega
  · rw [List.flatten_append, List.flatten_singleton, List.append_assoc, List.take_append_drop]
    exact heq

theorem Partly.finish {content : List β} {pieces : List (List β)} (h : Partly content [] pieces) :
    Served content (pieces ++ [[]]) :=
  ⟨pieces, rfl, h.1, (List.append_nil _).symm.trans h.2⟩

/-- It can be completed. -/
theorem Partly.exists_served {content left : List β} {pieces : List (List β)}
    (h : Partly content left pieces) : ∃ rest, Served content (pieces ++ rest) := by
  cases left with
  | nil => exact ⟨_, h.finish⟩
  | cons x xs =>
      have hall := h.piece (n := (x :: xs).length) (Nat.succ_pos _) (Nat.le_refl _)
      rw [List.drop_length, List.take_length] at hall
      refine ⟨[x :: xs] ++ [[]], ?_⟩
      rw [← List.append_assoc]
      exact hall.finish

theorem mem_of_rest {s : Service ι β} {job other : ι × List β} {rest : List (ι × List β)}
    (hjobs : s.jobs = job :: rest) (hmem : other ∈ rest) : other ∈ s.jobs :=
  hjobs ▸ List.mem_cons_of_mem _ hmem

/-- A request that is not being served behind the first one, and is not the first one. -/
theorem not_mem_of_rest {s : Service ι β} {job : ι × List β} {rest : List (ι × List β)}
    (hjobs : s.jobs = job :: rest) {j : ι} (hne : job.1 ≠ j) (hnone : ∀ left, (j, left) ∉ rest)
    (left : List β) : (j, left) ∉ s.jobs := by
  rw [hjobs, List.mem_cons]
  rintro (heq | hmem)
  · exact hne (congrArg Prod.fst heq).symm
  · exact hnone left hmem

/-! ## A job anywhere in the list -/

section

variable {want lossy} {s : Service ι β} {front rest : List (ι × List β)}

/-- A run of the service. -/
abbrev Run (want : ι → List β) (lossy : Prop) : Service ι β → Service ι β → Prop :=
  Relation.ReflTransGen (Step want lossy)

theorem Run.to_front {x : List (ι × List β)} (hjobs : s.jobs = front ++ x ++ rest) :
    Run want lossy s { s with jobs := x ++ (front ++ rest) } := by
  refine .single (.reorder ?_)
  rw [hjobs, ← List.append_assoc]
  exact List.perm_append_comm.append_right rest

theorem Run.from_front {x : List (ι × List β)} (hjobs : s.jobs = x ++ (front ++ rest)) :
    Run want lossy s { s with jobs := front ++ x ++ rest } := by
  refine .single (.reorder ?_)
  rw [hjobs, ← List.append_assoc]
  exact List.perm_append_comm.append_right rest

theorem Run.piece {i : ι} {left : List β} (hjobs : s.jobs = front ++ [(i, left)] ++ rest) (n : Nat)
    (hpos : 0 < n) (hle : n ≤ left.length) :
    Run want lossy s { s with
      jobs := front ++ [(i, left.drop n)] ++ rest
      out := s.out ++ [(i, left.take n)] } := by
  have h : Run want lossy s _ := Run.to_front hjobs
  have h := h.tail (.piece n hpos hle rfl)
  exact h.trans (Run.from_front (x := [(i, left.drop n)]) rfl)

theorem Run.finish {i : ι} (hjobs : s.jobs = front ++ [(i, [])] ++ rest) :
    Run want lossy s { s with jobs := front ++ rest, out := s.out ++ [(i, [])] } :=
  (Run.to_front hjobs).tail (.finish rfl)

theorem Run.drop {job : ι × List β} (hlossy : lossy) (hjobs : s.jobs = front ++ [job] ++ rest) :
    Run want lossy s { s with jobs := front ++ rest } :=
  (Run.to_front hjobs).tail (.drop hlossy rfl)

end

/-! ## What was sent -/

variable [DecidableEq ι]

/-- What was sent for a request, in order. -/
def pieces (s : Service ι β) (i : ι) : List (List β) :=
  (s.out.filter fun p => p.1 = i).map Prod.snd

structure Sound (s : Service ι β) : Prop where
  nodup : (s.jobs.map Prod.fst).Nodup
  asked : ∀ job ∈ s.jobs, job.1 ∈ s.asked
  idle : ∀ i, i ∉ s.asked → s.pieces i = []
  part : ∀ job ∈ s.jobs, Partly (want job.1) job.2 (s.pieces job.1)
  done : ∀ i ∈ s.asked, (∀ left, (i, left) ∉ s.jobs) →
    Served (want i) (s.pieces i) ∨ (lossy ∧ ∃ left, Partly (want i) left (s.pieces i))

section

variable {want lossy} {s s' : Service ι β}

theorem pieces_send_self (s : Service ι β) (i : ι) (jobs : List (ι × List β)) (piece : List β) :
    pieces { s with jobs := jobs, out := s.out ++ [(i, piece)] } i = s.pieces i ++ [piece] := by
  simp [pieces]

theorem pieces_send_ne (s : Service ι β) {i j : ι} (jobs : List (ι × List β)) (piece : List β)
    (hne : i ≠ j) :
    pieces { s with jobs := jobs, out := s.out ++ [(i, piece)] } j = s.pieces j := by
  simp [pieces, hne]

/-- Another request than the first is for something else. -/
theorem Sound.ne_of_mem (h : Sound want lossy s) {i : ι} {left : List β}
    {rest : List (ι × List β)} (hjobs : s.jobs = (i, left) :: rest) {job : ι × List β}
    (hmem : job ∈ rest) : i ≠ job.1 := by
  have hnodup := h.nodup
  rw [hjobs, List.map_cons, List.nodup_cons] at hnodup
  exact fun heq => hnodup.1 (List.mem_map.mpr ⟨job, hmem, heq.symm⟩)

theorem Sound.initial : Sound want lossy (⟨[], [], []⟩ : Service ι β) where
  nodup := List.nodup_nil
  asked := fun _ h => nomatch h
  idle := fun _ _ => rfl
  part := fun _ h => nomatch h
  done := fun _ h => nomatch h

theorem Sound.reorder (h : Sound want lossy s) {jobs : List (ι × List β)}
    (hperm : s.jobs.Perm jobs) : Sound want lossy { s with jobs := jobs } where
  nodup := (hperm.map _).nodup_iff.mp h.nodup
  asked job hj := h.asked job (hperm.mem_iff.mpr hj)
  idle := h.idle
  part job hj := h.part job (hperm.mem_iff.mpr hj)
  done i hi hnone := h.done i hi fun left hmem => hnone left (hperm.mem_iff.mp hmem)

theorem Sound.ask (h : Sound want lossy s) {i : ι} (hnew : i ∉ s.asked) :
    Sound want lossy { s with asked := s.asked ++ [i], jobs := (i, want i) :: s.jobs } := by
  have hfresh : i ∉ s.jobs.map Prod.fst := by
    intro hmem
    obtain ⟨job, hj, rfl⟩ := List.mem_map.mp hmem
    exact hnew (h.asked job hj)
  refine ⟨List.nodup_cons.mpr ⟨hfresh, h.nodup⟩, ?_, ?_, ?_, ?_⟩
  · intro job hj
    rcases List.mem_cons.mp hj with rfl | hold
    · exact List.mem_append_right _ (List.mem_singleton_self _)
    · exact List.mem_append_left _ (h.asked job hold)
  · intro j hj
    exact h.idle j fun hold => hj (List.mem_append_left _ hold)
  · intro job hj
    rcases List.mem_cons.mp hj with rfl | hold
    · have hnone := h.idle i hnew
      rw [show pieces { s with asked := s.asked ++ [i], jobs := (i, want i) :: s.jobs } i =
        s.pieces i from rfl, hnone]
      exact .start _
    · exact h.part job hold
  · intro j hj hnone
    rcases List.mem_append.mp hj with hold | hself
    · exact h.done j hold fun left hmem => hnone left (List.mem_cons_of_mem _ hmem)
    · rw [List.mem_singleton.mp hself] at hnone
      exact (hnone _ List.mem_cons_self).elim

section

variable {i : ι} {left : List β} {job : ι × List β} {rest : List (ι × List β)}

theorem Sound.rest_nodup (h : Sound want lossy s) (hjobs : s.jobs = job :: rest) :
    (rest.map Prod.fst).Nodup := by
  have hnodup := h.nodup
  rw [hjobs, List.map_cons, List.nodup_cons] at hnodup
  exact hnodup.2

/-- The first job is for something that was asked for. -/
theorem Sound.ne_of_not_asked (h : Sound want lossy s) (hjobs : s.jobs = job :: rest) {j : ι}
    (hj : j ∉ s.asked) : job.1 ≠ j :=
  fun heq => hj (heq ▸ h.asked job (hjobs ▸ List.mem_cons_self))

theorem Sound.piece (h : Sound want lossy s) {n : Nat} (hpos : 0 < n) (hle : n ≤ left.length)
    (hjobs : s.jobs = (i, left) :: rest) :
    Sound want lossy
      { s with jobs := (i, left.drop n) :: rest, out := s.out ++ [(i, left.take n)] } := by
  have hfirst : (i, left) ∈ s.jobs := hjobs ▸ List.mem_cons_self
  have hnodup := h.nodup
  rw [hjobs] at hnodup
  refine ⟨hnodup, ?_, ?_, ?_, ?_⟩
  · intro job hj
    rcases List.mem_cons.mp hj with rfl | hold
    · exact h.asked (i, left) hfirst
    · exact h.asked job (mem_of_rest hjobs hold)
  · intro j hj
    rw [pieces_send_ne s _ _ (h.ne_of_not_asked hjobs hj)]
    exact h.idle j hj
  · intro job hj
    rcases List.mem_cons.mp hj with rfl | hold
    · rw [pieces_send_self]
      exact (h.part _ hfirst).piece hpos hle
    · rw [pieces_send_ne s _ _ (h.ne_of_mem hjobs hold)]
      exact h.part job (mem_of_rest hjobs hold)
  · intro j hj hnone
    have hne : i ≠ j := fun heq => hnone (left.drop n) (heq ▸ List.mem_cons_self)
    rw [pieces_send_ne s _ _ hne]
    exact h.done j hj (not_mem_of_rest hjobs hne fun left' hold =>
      hnone left' (List.mem_cons_of_mem _ hold))

theorem Sound.finish (h : Sound want lossy s) (hjobs : s.jobs = (i, []) :: rest) :
    Sound want lossy { s with jobs := rest, out := s.out ++ [(i, [])] } := by
  refine ⟨h.rest_nodup hjobs, fun job hj => h.asked job (mem_of_rest hjobs hj), ?_, ?_, ?_⟩
  · intro j hj
    rw [pieces_send_ne s _ _ (h.ne_of_not_asked hjobs hj)]
    exact h.idle j hj
  · intro job hj
    rw [pieces_send_ne s _ _ (h.ne_of_mem hjobs hj)]
    exact h.part job (mem_of_rest hjobs hj)
  · intro j hj hnone
    by_cases heq : i = j
    · subst heq
      rw [pieces_send_self]
      exact .inl (h.part _ (hjobs ▸ List.mem_cons_self)).finish
    · rw [pieces_send_ne s _ _ heq]
      exact h.done j hj (not_mem_of_rest hjobs heq hnone)

theorem Sound.drop (h : Sound want lossy s) (hlossy : lossy) (hjobs : s.jobs = job :: rest) :
    Sound want lossy { s with jobs := rest } := by
  refine ⟨h.rest_nodup hjobs, fun job hj => h.asked job (mem_of_rest hjobs hj), h.idle,
    fun job hj => h.part job (mem_of_rest hjobs hj), fun j hj hnone => ?_⟩
  by_cases heq : job.1 = j
  · subst heq
    exact .inr ⟨hlossy, job.2, h.part job (hjobs ▸ List.mem_cons_self)⟩
  · exact h.done j hj (not_mem_of_rest hjobs heq hnone)

end

theorem Sound.step (h : Sound want lossy s) (hstep : Step want lossy s s') :
    Sound want lossy s' := by
  cases hstep with
  | reorder hperm => exact h.reorder hperm
  | ask i hnew => exact h.ask hnew
  | piece n hpos hle hjobs => exact h.piece hpos hle hjobs
  | finish hjobs => exact h.finish hjobs
  | drop hlossy hjobs => exact h.drop hlossy hjobs

theorem Sound.run (h : Sound want lossy s) (hrun : Run want lossy s s') :
    Sound want lossy s' := by
  induction hrun with
  | refl => exact h
  | tail _ hstep ih => exact ih.step hstep

/-- What was sent for a request is the beginning of what is to be sent. -/
theorem Sound.exists_served (h : Sound want lossy s) {i : ι} (hi : i ∈ s.asked) :
    ∃ rest, Served (want i) (s.pieces i ++ rest) := by
  by_cases hjob : ∃ left, (i, left) ∈ s.jobs
  · obtain ⟨left, hleft⟩ := hjob
    exact (h.part _ hleft).exists_served
  · rcases h.done i hi fun left hmem => hjob ⟨left, hmem⟩ with hserved | ⟨_, left, hpart⟩
    · exact ⟨[], by rw [List.append_nil]; exact hserved⟩
    · exact hpart.exists_served

end

end Service

end BuilderShim.Foundation
