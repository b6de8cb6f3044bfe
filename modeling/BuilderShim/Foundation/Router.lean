/-
  Foundation/Router.lean --- messages on their way to handlers, by key.

  A message that arrives is put in the lane it is destined for.  At the end of a
  lane the handler registered for the message's key is looked up, and the message
  is delivered to it or dropped; between the two, handlers are registered, replaced,
  forgotten and closed by others.

  The result is that a handler which was there before the first message with its
  key, and is open, has been delivered the messages it wants in the order of their
  arrival and without a gap (`Delivered`), and that no message is delivered twice
  (`Once`).
-/
import Mathlib.Data.List.Nodup
import Mathlib.Logic.Function.Basic
import Mathlib.Logic.Relation

set_option autoImplicit false

namespace BuilderShim.Foundation

universe u v

/-! ## Replacing an element of a list -/

section

variable {α : Type u} {xs : List α} {x x' y : α} {d j : Nat}

theorem getElem?_set_cases (hj : (xs.set d x)[j]? = some y) :
    (j = d ∧ y = x) ∨ (j ≠ d ∧ xs[j]? = some y) := by
  rw [List.getElem?_set] at hj
  split at hj
  · rename_i heq
    split at hj
    · exact .inl ⟨heq.symm, (Option.some.inj hj).symm⟩
    · cases hj
  · rename_i hne
    exact .inr ⟨fun h => hne h.symm, hj⟩

/-- What was said of the element that is replaced can be said of the one in its place. -/
theorem exists_set {Q : α → Prop} (hd : xs[d]? = some x) (hQ : Q x → Q x')
    (hex : ∃ y, xs[j]? = some y ∧ Q y) : ∃ y, (xs.set d x')[j]? = some y ∧ Q y := by
  obtain ⟨y, hy, hQy⟩ := hex
  by_cases heq : d = j
  · subst heq
    rw [hd] at hy
    cases hy
    have hlt : d < xs.length := (List.getElem?_eq_some_iff.mp hd).1
    exact ⟨x', List.getElem?_set_self hlt, hQ hQy⟩
  · refine ⟨y, ?_, hQy⟩
    rw [List.getElem?_set_ne heq]
    exact hy

theorem set_of_getElem? (hd : xs[d]? = some x) : xs.set d x = xs := by
  obtain ⟨hlt, hx⟩ := List.getElem?_eq_some_iff.mp hd
  rw [← hx]
  exact List.set_getElem_self hlt

theorem getElem?_append_cases (hj : (xs ++ [x])[j]? = some y) :
    xs[j]? = some y ∨ (j = xs.length ∧ y = x) := by
  rcases Nat.lt_trichotomy j xs.length with hlt | heq | hgt
  · rw [List.getElem?_append_left hlt] at hj
    exact .inl hj
  · subst heq
    rw [List.getElem?_concat_length] at hj
    exact .inr ⟨rfl, (Option.some.inj hj).symm⟩
  · rw [List.getElem?_eq_none (by simp; omega)] at hj
    cases hj

theorem getElem?_append_some (hj : xs[j]? = some y) : (xs ++ [x])[j]? = some y := by
  rw [List.getElem?_append_left (List.getElem?_eq_some_iff.mp hj).1]
  exact hj

end

/-- A handler, with what was delivered to it and the number of messages that had arrived
when it was registered. -/
structure Handler (μ : Type u) (κ : Type v) where
  lane : Nat
  key : κ
  wants : μ → Bool
  closed : Bool
  accepted : List μ
  since : Nat

@[ext]
structure Router (μ : Type u) (κ : Type v) where
  arrived : List μ
  /-- what is in a lane, oldest first -/
  pending : Nat → List μ
  /-- the handler that was looked up for the oldest message of the lane -/
  held : Nat → Option Nat
  table : Nat → κ → Option Nat
  handlers : List (Handler μ κ)

namespace Router

variable {μ : Type u} {κ : Type v} (key : μ → κ) (dest : μ → Option Nat)

/-- The message is put in its lane. -/
def enqueue (pending : Nat → List μ) (m : μ) : Option Nat → Nat → List μ
  | none => pending
  | some i => Function.update pending i (pending i ++ [m])

/-- The table with one more entry, or one replaced. -/
def store [DecidableEq κ] (table : Nat → κ → Option Nat) (i : Nat) (k : κ) (d : Nat) :
    Nat → κ → Option Nat :=
  fun j k' => if j = i ∧ k' = k then some d else table j k'

inductive Step [DecidableEq κ] : Router μ κ → Router μ κ → Prop
  | arrive {r : Router μ κ} (m : μ) (hnew : m ∉ r.arrived) :
      Step r { r with arrived := r.arrived ++ [m], pending := enqueue r.pending m (dest m) }
  | load {r : Router μ κ} {i d : Nat} {m : μ} {rest : List μ} (hp : r.pending i = m :: rest)
      (hheld : r.held i = none) (ht : r.table i (key m) = some d) :
      Step r { r with held := Function.update r.held i (some d) }
  | dropMissing {r : Router μ κ} {i : Nat} {m : μ} {rest : List μ}
      (hp : r.pending i = m :: rest) (hheld : r.held i = none)
      (ht : r.table i (key m) = none) :
      Step r { r with pending := Function.update r.pending i rest }
  | drop {r : Router μ κ} {i d : Nat} {m : μ} {rest : List μ} {h : Handler μ κ}
      (hp : r.pending i = m :: rest) (hheld : r.held i = some d)
      (hd : r.handlers[d]? = some h) (hwhy : h.closed = true ∨ h.wants m = false) :
      Step r { r with
        pending := Function.update r.pending i rest
        held := Function.update r.held i none }
  | deliver {r : Router μ κ} {i d : Nat} {m : μ} {rest : List μ} {h : Handler μ κ}
      (hp : r.pending i = m :: rest) (hheld : r.held i = some d)
      (hd : r.handlers[d]? = some h) (hwants : h.wants m = true) :
      Step r { r with
        pending := Function.update r.pending i rest
        held := Function.update r.held i none
        handlers := r.handlers.set d { h with accepted := h.accepted ++ [m] } }
  | forget {r : Router μ κ} (t : Nat → κ → Option Nat)
      (ht : ∀ i k d, t i k = some d → r.table i k = some d) : Step r { r with table := t }
  | register {r : Router μ κ} (i : Nat) (k : κ) (wants : μ → Bool) (closed : Bool) :
      Step r { r with
        table := store r.table i k r.handlers.length
        handlers := r.handlers ++ [⟨i, k, wants, closed, [], r.arrived.length⟩] }
  | close {r : Router μ κ} {d : Nat} {h : Handler μ κ} (hd : r.handlers[d]? = some h) :
      Step r { r with handlers := r.handlers.set d { h with closed := true } }

/-! ## Lanes, table and handlers fit together -/

/-- A message for the lane of the handler, with its key, that it wants. -/
def Mine (h : Handler μ κ) (m : μ) : Prop :=
  dest m = some h.lane ∧ key m = h.key ∧ h.wants m = true

instance [DecidableEq κ] (h : Handler μ κ) (m : μ) : Decidable (Mine key dest h m) := by
  unfold Mine
  infer_instance

/-- What the handler is there for. -/
def expected [DecidableEq κ] (r : Router μ κ) (h : Handler μ κ) : List μ :=
  r.arrived.filter (Mine key dest h)

/-- No message with its key had arrived when the handler was registered. -/
def Timely (r : Router μ κ) (h : Handler μ κ) : Prop :=
  ∀ m ∈ r.arrived.take h.since, key m ≠ h.key

structure Fits (r : Router μ κ) : Prop where
  nodup : r.arrived.Nodup
  flow : ∀ i, r.pending i <:+ r.arrived.filter (dest · = some i)
  since : ∀ (d : Nat) (h : Handler μ κ), r.handlers[d]? = some h → h.since ≤ r.arrived.length
  table : ∀ i k d, r.table i k = some d →
    ∃ h, r.handlers[d]? = some h ∧ h.lane = i ∧ h.key = k
  held : ∀ i d, r.held i = some d → ∃ m rest h, r.pending i = m :: rest ∧
    r.handlers[d]? = some h ∧ h.lane = i ∧ h.key = key m ∧
      ∀ (d' : Nat) (h' : Handler μ κ), r.table i (key m) = some d' →
        r.handlers[d']? = some h' → d' = d ∨ m ∈ r.arrived.take h'.since

section

variable {key dest} {r r' : Router μ κ}

variable {i : Nat} {m : μ}

theorem Fits.mem_arrived (hr : Fits key dest r) (hm : m ∈ r.pending i) :
    m ∈ r.arrived ∧ dest m = some i := by
  have hmem := (hr.flow i).subset hm
  rw [List.mem_filter, decide_eq_true_eq] at hmem
  exact hmem

/-- The suffix is taken from a list without duplicates. -/
theorem Fits.pending_nodup (hr : Fits key dest r) (i : Nat) : (r.pending i).Nodup :=
  (hr.nodup.filter _).sublist (hr.flow i).sublist

theorem take_arrive {xs : List μ} {n : Nat} (h : n ≤ xs.length) (m : μ) :
    (xs ++ [m]).take n = xs.take n :=
  List.take_append_of_le_length h

theorem enqueue_eq (pending : Nat → List μ) (m : μ) (dst : Option Nat) (i : Nat) :
    enqueue pending m dst i = pending i ++ if dst = some i then [m] else [] := by
  cases dst with
  | none => simp [enqueue]
  | some j =>
      by_cases hj : i = j
      · subst hj
        simp [enqueue]
      · have hne : ¬ some j = some i := fun h => hj (Option.some.inj h).symm
        simp [enqueue, Function.update_of_ne hj, hne]

theorem store_cases [DecidableEq κ] {table : Nat → κ → Option Nat} {j n d : Nat} {k k' : κ}
    (h : store table i k n j k' = some d) :
    (j = i ∧ k' = k ∧ d = n) ∨ (¬ (j = i ∧ k' = k) ∧ table j k' = some d) := by
  unfold store at h
  split at h
  · rename_i heq
    exact .inl ⟨heq.1, heq.2, (Option.some.inj h).symm⟩
  · rename_i hne
    exact .inr ⟨hne, h⟩

theorem filter_arrive (xs : List μ) (m : μ) (q : μ → Bool) :
    (xs ++ [m]).filter q = xs.filter q ++ if q m then [m] else [] := by
  rw [List.filter_append]
  cases hq : q m with
  | true => simp [hq]
  | false => simp [hq]

/-- One handler was changed, in nothing that its place depends on. -/
theorem Fits.set (hr : Fits key dest r) {d : Nat} {h h' : Handler μ κ}
    (hd : r.handlers[d]? = some h) (hlane : h'.lane = h.lane) (hkey : h'.key = h.key)
    (hsince : h'.since = h.since) :
    Fits key dest { r with handlers := r.handlers.set d h' } where
  nodup := hr.nodup
  flow := hr.flow
  since := by
    intro j x hj
    rcases getElem?_set_cases hj with ⟨_, rfl⟩ | ⟨_, hold⟩
    · rw [hsince]
      exact hr.since d h hd
    · exact hr.since j x hold
  table := fun i k j hj =>
    exists_set hd (fun hQ => ⟨hlane.trans hQ.1, hkey.trans hQ.2⟩) (hr.table i k j hj)
  held := by
    intro i j hj
    obtain ⟨m, rest, x, hp, hx, hxlane, hxkey, hothers⟩ := hr.held i j hj
    obtain ⟨y, hy, hylane, hykey⟩ :=
      exists_set (Q := fun x => x.lane = i ∧ x.key = key m) hd
        (fun hQ => ⟨hlane.trans hQ.1, hkey.trans hQ.2⟩) ⟨x, hx, hxlane, hxkey⟩
    refine ⟨m, rest, y, hp, hy, hylane, hykey, fun d' z ht hz => ?_⟩
    rcases getElem?_set_cases hz with ⟨rfl, rfl⟩ | ⟨_, hold⟩
    · rw [hsince]
      exact hothers d' h ht hd
    · exact hothers d' z ht hold

/-- The oldest message of a lane is done with. -/
theorem Fits.next (hr : Fits key dest r) {rest : List μ} (hp : r.pending i = m :: rest) :
    Fits key dest { r with
      pending := Function.update r.pending i rest
      held := Function.update r.held i none } where
  nodup := hr.nodup
  flow := by
    intro j
    by_cases hj : j = i
    · subst hj
      have hflow := hr.flow j
      rw [hp] at hflow
      simp only [Function.update_self]
      exact (List.suffix_cons m rest).trans hflow
    · simp only [Function.update_of_ne hj]
      exact hr.flow j
  since := hr.since
  table := hr.table
  held := by
    intro j d hj
    by_cases heq : j = i
    · subst heq
      simp at hj
    · simp only [Function.update_of_ne heq] at hj ⊢
      exact hr.held j d hj

theorem Fits.arrive (hr : Fits key dest r) (hnew : m ∉ r.arrived) :
    Fits key dest
      { r with arrived := r.arrived ++ [m], pending := enqueue r.pending m (dest m) } := by
  refine ⟨?_, ?_, ?_, hr.table, ?_⟩
  · exact List.nodup_append.mpr ⟨hr.nodup, List.nodup_singleton m, fun a ha b hb => by
      rw [List.mem_singleton.mp hb]
      exact fun heq => hnew (heq ▸ ha)⟩
  · intro i
    simp only [enqueue_eq, filter_arrive, decide_eq_true_eq]
    obtain ⟨front, hfront⟩ := hr.flow i
    exact ⟨front, by rw [← hfront, List.append_assoc]⟩
  · intro d h hd
    rw [List.length_append]
    exact Nat.le_add_right_of_le (hr.since d h hd)
  · intro i d hd
    obtain ⟨m', rest, h, hp, hh, hlane, hkey, hothers⟩ := hr.held i d hd
    refine ⟨m', rest ++ if dest m = some i then [m] else [], h, ?_, hh, hlane, hkey, ?_⟩
    · simp only [enqueue_eq, hp, List.cons_append]
    · intro d' h' ht hh'
      simp only [take_arrive (hr.since d' h' hh')]
      exact hothers d' h' ht hh'

theorem Fits.register [DecidableEq κ] (hr : Fits key dest r) (i : Nat) (k : κ) (wants : μ → Bool)
    (closed : Bool) :
    Fits key dest { r with
      table := store r.table i k r.handlers.length
      handlers := r.handlers ++ [⟨i, k, wants, closed, [], r.arrived.length⟩] } := by
  refine ⟨hr.nodup, hr.flow, ?_, ?_, ?_⟩
  · intro d h hd
    rcases getElem?_append_cases hd with hold | ⟨_, rfl⟩
    · exact hr.since d h hold
    · exact Nat.le_refl _
  · intro j k' d hd
    rcases store_cases hd with ⟨rfl, rfl, rfl⟩ | ⟨_, hold⟩
    · exact ⟨_, List.getElem?_concat_length, rfl, rfl⟩
    · obtain ⟨h, hh, hplace⟩ := hr.table j k' d hold
      exact ⟨h, getElem?_append_some hh, hplace⟩
  · intro j d hd
    obtain ⟨m, rest, h, hp, hh, hlane, hkey, hothers⟩ := hr.held j d hd
    refine ⟨m, rest, h, hp, getElem?_append_some hh, hlane, hkey, fun d' h' ht hh' => ?_⟩
    rcases getElem?_append_cases hh' with hold | ⟨_, rfl⟩
    · rcases store_cases ht with ⟨_, _, rfl⟩ | ⟨_, hold'⟩
      · exact absurd (List.getElem?_eq_some_iff.mp hold).1 (Nat.lt_irrefl _)
      · exact hothers d' h' hold' hold
    · -- The message was there before the new handler.
      refine .inr ?_
      rw [List.take_length]
      exact (hr.mem_arrived (hp ▸ List.mem_cons_self)).1

theorem Fits.step [DecidableEq κ] (hr : Fits key dest r) (h : Step key dest r r') :
    Fits key dest r' := by
  cases h with
  | arrive m hnew => exact hr.arrive hnew
  | @load i d m rest hp hheld ht =>
      refine ⟨hr.nodup, hr.flow, hr.since, hr.table, ?_⟩
      intro j d' hd'
      by_cases heq : j = i
      · subst heq
        simp only [Function.update_self, Option.some.injEq] at hd'
        subst hd'
        obtain ⟨h, hh, hlane, hkey⟩ := hr.table j (key m) d ht
        refine ⟨m, rest, h, hp, hh, hlane, hkey, fun d' h' ht' _ => .inl ?_⟩
        rw [ht] at ht'
        exact (Option.some.inj ht').symm
      · simp only [Function.update_of_ne heq] at hd'
        exact hr.held j d' hd'
  | @dropMissing i m rest hp hheld ht =>
      have hnext := hr.next hp
      rw [← hheld, Function.update_eq_self] at hnext
      exact hnext
  | drop hp _ _ _ => exact hr.next hp
  | deliver hp _ hd _ => exact (hr.next hp).set hd rfl rfl rfl
  | forget t ht =>
      refine ⟨hr.nodup, hr.flow, hr.since, fun i k d h => hr.table i k d (ht i k d h), ?_⟩
      intro i d hd
      obtain ⟨m, rest, h, hp, hh, hlane, hkey, hothers⟩ := hr.held i d hd
      exact ⟨m, rest, h, hp, hh, hlane, hkey, fun d' h' h₁ h₂ =>
        hothers d' h' (ht i _ d' h₁) h₂⟩
  | register i k wants closed => exact hr.register i k wants closed
  | close hd => exact hr.set hd rfl rfl rfl

end

/-! ## Without a gap -/

/-- The handler is in the table, or was looked up for the message that is at hand. -/
def Current (r : Router μ κ) (d : Nat) (h : Handler μ κ) : Prop :=
  r.table h.lane h.key = some d ∨ r.held h.lane = some d

/-- What was delivered is the beginning of what is expected; for a handler that still gets
messages, the rest is in its lane. -/
structure InOrder [DecidableEq κ] (r : Router μ κ) (d : Nat) (h : Handler μ κ) : Prop where
  front : h.accepted <+: expected key dest r h
  whole : Current r d h →
    h.accepted ++ (r.pending h.lane).filter (Mine key dest h) = expected key dest r h

def Delivered [DecidableEq κ] (r : Router μ κ) : Prop :=
  ∀ (d : Nat) (h : Handler μ κ), r.handlers[d]? = some h → h.closed = false → Timely key r h →
    InOrder key dest r d h

section

variable {key dest} {r r' : Router μ κ}

variable {d i : Nat} {m : μ} {rest : List μ} {h : Handler μ κ}

/-- A timely handler does not want the message that is done with, unless it is the one that
was looked up for it. -/
theorem Fits.not_mine (hr : Fits key dest r) {d' : Nat} {h' : Handler μ κ}
    (hp : r.pending i = m :: rest) (hheld : r.held i = some d) (hd' : r.handlers[d']? = some h')
    (htimely : Timely key r h') (hlane : h'.lane = i) (ht : r.table h'.lane h'.key = some d')
    (hne : d' ≠ d) : ¬ Mine key dest h' m := by
  rintro ⟨_, hkey, _⟩
  obtain ⟨m', rest', h, hp', _, _, _, hothers⟩ := hr.held i d hheld
  rw [hp] at hp'
  cases hp'
  rw [hlane, ← hkey] at ht
  rcases hothers d' h' ht hd' with heq | hbefore
  · exact hne heq
  · exact htimely m hbefore hkey

variable [DecidableEq κ]

/-- The message at hand is not one of the handler's: the lane without it holds the same for
the handler. -/
theorem filter_next (hp : r.pending i = m :: rest) (hmine : h.lane = i → ¬ Mine key dest h m) :
    (Function.update r.pending i rest h.lane).filter (Mine key dest h) =
      (r.pending h.lane).filter (Mine key dest h) := by
  by_cases hlane : h.lane = i
  · subst hlane
    rw [Function.update_self, hp, List.filter_cons_of_neg (by simpa using hmine rfl)]
  · rw [Function.update_of_ne hlane]

/-- The message at hand is dropped or delivered elsewhere. -/
theorem InOrder.next (ho : InOrder key dest r d h) (hp : r.pending i = m :: rest)
    (hmine : h.lane = i → r.table h.lane h.key = some d → ¬ Mine key dest h m) :
    InOrder key dest { r with
      pending := Function.update r.pending i rest
      held := Function.update r.held i none } d h where
  front := ho.front
  whole := by
    intro hcur
    have htable : r.table h.lane h.key = some d ∨ (h.lane ≠ i ∧ r.held h.lane = some d) := by
      rcases hcur with ht | hheld
      · exact .inl ht
      · by_cases hlane : h.lane = i
        · simp only [hlane, Function.update_self] at hheld
          cases hheld
        · simp only [Function.update_of_ne hlane] at hheld
          exact .inr ⟨hlane, hheld⟩
    have hnot : h.lane = i → ¬ Mine key dest h m := by
      intro hlane
      rcases htable with ht | ⟨hne, _⟩
      · exact hmine hlane ht
      · exact (hne hlane).elim
    have hcur' : Current r d h := by
      rcases htable with ht | ⟨_, hheld⟩
      · exact .inl ht
      · exact .inr hheld
    have hwhole := ho.whole hcur'
    rw [← filter_next hp hnot] at hwhole
    exact hwhole

theorem Delivered.arrive (hr : Fits key dest r) (hd : Delivered key dest r) (m : μ) :
    Delivered key dest
      { r with arrived := r.arrived ++ [m], pending := enqueue r.pending m (dest m) } := by
  intro d h hh hopen htimely
  have htimely' : Timely key r h := by
    unfold Timely at htimely ⊢
    rwa [take_arrive (hr.since d h hh)] at htimely
  have ho := hd d h hh hopen htimely'
  have hexp : expected key dest
      { r with arrived := r.arrived ++ [m], pending := enqueue r.pending m (dest m) } h =
      expected key dest r h ++ if Mine key dest h m then [m] else [] := by
    unfold expected
    rw [filter_arrive]
    simp only [decide_eq_true_eq]
  refine ⟨?_, fun hcur => ?_⟩
  · rw [hexp]
    exact ho.front.trans (List.prefix_append _ _)
  · rw [hexp, ← ho.whole hcur, List.append_assoc]
    congr 1
    simp only [enqueue_eq, List.filter_append]
    congr 1
    by_cases hdest : dest m = some h.lane
    · by_cases hmine : Mine key dest h m
      · simp [hdest, hmine]
      · simp [hdest, hmine]
    · have hmine : ¬ Mine key dest h m := fun hm => hdest hm.1
      simp [hdest, hmine]

theorem Delivered.deliver (hr : Fits key dest r) (hdel : Delivered key dest r)
    (hp : r.pending i = m :: rest) (hheld : r.held i = some d) (hd : r.handlers[d]? = some h)
    (hwants : h.wants m = true) :
    Delivered key dest { r with
      pending := Function.update r.pending i rest
      held := Function.update r.held i none
      handlers := r.handlers.set d { h with accepted := h.accepted ++ [m] } } := by
  intro d' h' hh' hopen htimely
  rcases getElem?_set_cases hh' with ⟨rfl, rfl⟩ | ⟨hne, hold⟩
  · obtain ⟨m', rest', h', hp', hh', hlane, hkey, _⟩ := hr.held i d' hheld
    rw [hp] at hp'
    cases hp'
    rw [hd] at hh'
    cases hh'
    subst hlane
    have ho := hdel d' h hd hopen htimely
    have hm : m ∈ r.pending h.lane := hp ▸ List.mem_cons_self
    have hmine : Mine key dest h m := ⟨(hr.mem_arrived hm).2, hkey.symm, hwants⟩
    have hwhole := ho.whole (.inr hheld)
    rw [hp, List.filter_cons_of_pos (by simpa using hmine)] at hwhole
    have hnew : (h.accepted ++ [m]) ++ rest.filter (Mine key dest h) = expected key dest r h := by
      rw [List.append_assoc]
      exact hwhole
    refine ⟨⟨_, hnew⟩, fun _ => ?_⟩
    simp only [Function.update_self]
    exact hnew
  · have ho := hdel d' h' hold hopen htimely
    have hnext := ho.next hp fun hlane ht => hr.not_mine hp hheld hold htimely hlane ht hne
    exact ⟨hnext.front, hnext.whole⟩

theorem Delivered.load (hr : Fits key dest r) (hdel : Delivered key dest r)
    (ht : r.table i (key m) = some d) :
    Delivered key dest { r with held := Function.update r.held i (some d) } := by
  intro d' h' hh' hopen htimely
  have ho := hdel d' h' hh' hopen htimely
  refine ⟨ho.front, fun hcur => ho.whole ?_⟩
  rcases hcur with hcur | hcur
  · exact .inl hcur
  · by_cases hlane : h'.lane = i
    · obtain ⟨x, hx, _, hkey⟩ := hr.table i (key m) d ht
      simp only [hlane, Function.update_self, Option.some.injEq] at hcur
      subst hcur
      rw [hh'] at hx
      cases hx
      exact .inl (by rw [hlane, hkey]; exact ht)
    · simp only [Function.update_of_ne hlane] at hcur
      exact .inr hcur

/-- A handler that is registered now has missed nothing. -/
theorem Delivered.register (hr : Fits key dest r) (hdel : Delivered key dest r) (i : Nat) (k : κ)
    (wants : μ → Bool) (closed : Bool) :
    Delivered key dest { r with
      table := store r.table i k r.handlers.length
      handlers := r.handlers ++ [⟨i, k, wants, closed, [], r.arrived.length⟩] } := by
  intro d h hh hopen htimely
  rcases getElem?_append_cases hh with hold | ⟨rfl, rfl⟩
  · have ho := hdel d h hold hopen htimely
    refine ⟨ho.front, fun hcur => ho.whole ?_⟩
    rcases hcur with hcur | hcur
    · rcases store_cases hcur with ⟨_, _, rfl⟩ | ⟨_, hcur⟩
      · exact absurd (List.getElem?_eq_some_iff.mp hold).1 (Nat.lt_irrefl _)
      · exact .inl hcur
    · exact .inr hcur
  · -- Nothing with its key has arrived yet.
    have hnone : ∀ m ∈ r.arrived,
        ¬ Mine key dest ⟨i, k, wants, closed, [], r.arrived.length⟩ m := by
      intro m hm hmine
      refine htimely m ?_ hmine.2.1
      simp only [List.take_length]
      exact hm
    have hexp : r.arrived.filter
        (Mine key dest ⟨i, k, wants, closed, [], r.arrived.length⟩) = [] :=
      List.filter_eq_nil_iff.mpr fun m hm => by simpa using hnone m hm
    have hpend : (r.pending i).filter
        (Mine key dest ⟨i, k, wants, closed, [], r.arrived.length⟩) = [] :=
      List.filter_eq_nil_iff.mpr fun m hm => by simpa using hnone m (hr.mem_arrived hm).1
    refine ⟨List.nil_prefix, fun _ => ?_⟩
    simp only [expected, hexp, hpend, List.append_nil]

theorem Delivered.step (hr : Fits key dest r) (hdel : Delivered key dest r)
    (h : Step key dest r r') : Delivered key dest r' := by
  cases h with
  | arrive m _ => exact hdel.arrive hr m
  | load _ _ ht => exact hdel.load hr ht
  | @dropMissing i m rest hp hheld ht =>
      intro d' h' hh' hopen htimely
      have ho := hdel d' h' hh' hopen htimely
      have hnext := ho.next hp fun hlane htab hmine => by
        rw [hlane, ← hmine.2.1, ht] at htab
        cases htab
      rw [← hheld, Function.update_eq_self] at hnext
      exact hnext
  | @drop i d m rest h hp hheld hd hwhy =>
      intro d' h' hh' hopen htimely
      have ho := hdel d' h' hh' hopen htimely
      refine ho.next hp fun hlane htab => ?_
      by_cases heq : d' = d
      · subst heq
        rw [hd] at hh'
        cases hh'
        rcases hwhy with hclosed | hnot
        · rw [hopen] at hclosed
          cases hclosed
        · intro hmine
          rw [hmine.2.2] at hnot
          cases hnot
      · exact hr.not_mine hp hheld hh' htimely hlane htab heq
  | deliver hp hheld hd hwants => exact hdel.deliver hr hp hheld hd hwants
  | forget t ht =>
      intro d h hh hopen htimely
      have ho := hdel d h hh hopen htimely
      refine ⟨ho.front, fun hcur => ho.whole ?_⟩
      rcases hcur with hcur | hcur
      · exact .inl (ht _ _ _ hcur)
      · exact .inr hcur
  | register i k wants closed => exact hdel.register hr i k wants closed
  | @close d h hd =>
      intro d' h' hh' hopen htimely
      rcases getElem?_set_cases hh' with ⟨_, rfl⟩ | ⟨_, hold⟩
      · cases hopen
      · have ho := hdel d' h' hold hopen htimely
        exact ⟨ho.front, ho.whole⟩

end

/-! ## No message twice -/

/-- What was delivered has arrived, has the handler's key, and is in no lane any more; no two
handlers have it. -/
structure Once (r : Router μ κ) : Prop where
  taken : ∀ (d : Nat) (h : Handler μ κ), r.handlers[d]? = some h → ∀ m ∈ h.accepted,
    m ∈ r.arrived ∧ key m = h.key ∧ ∀ i, m ∉ r.pending i
  unique : ∀ (d d' : Nat) (h h' : Handler μ κ), r.handlers[d]? = some h →
    r.handlers[d']? = some h' → ∀ m ∈ h.accepted, m ∈ h'.accepted → d = d'

section

variable {key dest} {r r' : Router μ κ}

/-- The accepted messages are the same; those in the lanes are no more than before. -/
theorem Once.mono (ho : Once key r) {r' : Router μ κ}
    (harr : ∀ m ∈ r.arrived, m ∈ r'.arrived)
    (hpend : ∀ m ∈ r.arrived, ∀ i, m ∈ r'.pending i → m ∈ r.pending i)
    (hacc : ∀ (d : Nat) (h' : Handler μ κ), r'.handlers[d]? = some h' → h'.accepted ≠ [] →
      ∃ h, r.handlers[d]? = some h ∧ h'.key = h.key ∧ h'.accepted = h.accepted) :
    Once key r' where
  taken := by
    intro d h' hh' m hm
    obtain ⟨h, hh, hkey, heq⟩ := hacc d h' hh' (List.ne_nil_of_mem hm)
    obtain ⟨hmem, hm', hnot⟩ := ho.taken d h hh m (heq ▸ hm)
    exact ⟨harr m hmem, hm'.trans hkey.symm, fun i hi => hnot i (hpend m hmem i hi)⟩
  unique := by
    intro d₁ d₂ h₁ h₂ hh₁ hh₂ m hm₁ hm₂
    obtain ⟨g₁, hg₁, _, heq₁⟩ := hacc d₁ h₁ hh₁ (List.ne_nil_of_mem hm₁)
    obtain ⟨g₂, hg₂, _, heq₂⟩ := hacc d₂ h₂ hh₂ (List.ne_nil_of_mem hm₂)
    exact ho.unique d₁ d₂ g₁ g₂ hg₁ hg₂ m (heq₁ ▸ hm₁) (heq₂ ▸ hm₂)

variable {i : Nat} {m : μ} {rest : List μ}

theorem mem_update_next {j : Nat} {x : μ} (hp : r.pending i = m :: rest)
    (hx : x ∈ Function.update r.pending i rest j) : x ∈ r.pending j := by
  by_cases hj : j = i
  · subst hj
    rw [Function.update_self] at hx
    rw [hp]
    exact List.mem_cons_of_mem m hx
  · rwa [Function.update_of_ne hj] at hx

/-- The message that is done with is in no lane any more. -/
theorem Fits.not_mem_next (hr : Fits key dest r) (hp : r.pending i = m :: rest) (j : Nat) :
    m ∉ Function.update r.pending i rest j := by
  intro hx
  by_cases hj : j = i
  · subst hj
    rw [Function.update_self] at hx
    have hnodup := hr.pending_nodup j
    rw [hp] at hnodup
    exact (List.nodup_cons.mp hnodup).1 hx
  · rw [Function.update_of_ne hj] at hx
    have h₁ := (hr.mem_arrived hx).2
    have h₂ := (hr.mem_arrived (hp ▸ List.mem_cons_self : m ∈ r.pending i)).2
    rw [h₁] at h₂
    exact hj (Option.some.inj h₂)

theorem Once.deliver (hr : Fits key dest r) (ho : Once key r) {d : Nat} {h : Handler μ κ}
    (hp : r.pending i = m :: rest) (hheld : r.held i = some d) (hd : r.handlers[d]? = some h) :
    Once key { r with
      pending := Function.update r.pending i rest
      held := Function.update r.held i none
      handlers := r.handlers.set d { h with accepted := h.accepted ++ [m] } } := by
  have hm : m ∈ r.pending i := hp ▸ List.mem_cons_self
  -- Only `d` has the message, and what else it has it had before.
  have hcases : ∀ (j : Nat) (x : Handler μ κ),
      (r.handlers.set d { h with accepted := h.accepted ++ [m] })[j]? = some x →
      ∀ y ∈ x.accepted, (j = d ∧ y = m ∧ x.key = h.key) ∨
        ∃ x', r.handlers[j]? = some x' ∧ x.key = x'.key ∧ y ∈ x'.accepted := by
    intro j x hx y hy
    rcases getElem?_set_cases hx with ⟨rfl, rfl⟩ | ⟨_, hold⟩
    · rcases List.mem_append.mp hy with hy | hy
      · exact .inr ⟨h, hd, rfl, hy⟩
      · exact .inl ⟨rfl, List.mem_singleton.mp hy, rfl⟩
    · exact .inr ⟨x, hold, rfl, hy⟩
  have hfresh : ∀ (j : Nat) (x : Handler μ κ), r.handlers[j]? = some x → m ∉ x.accepted :=
    fun j x hx hmem => (ho.taken j x hx m hmem).2.2 i hm
  have hkey : key m = h.key := by
    obtain ⟨m', rest', h', hp', hh', _, hkey, _⟩ := hr.held i d hheld
    rw [hp] at hp'
    cases hp'
    rw [hd] at hh'
    cases hh'
    exact hkey.symm
  constructor
  · intro j x hx y hy
    rcases hcases j x hx y hy with ⟨_, rfl, hxkey⟩ | ⟨x', hx', hxkey, hy'⟩
    · exact ⟨(hr.mem_arrived hm).1, hkey.trans hxkey.symm, hr.not_mem_next hp⟩
    · obtain ⟨harr, hykey, hnot⟩ := ho.taken j x' hx' y hy'
      exact ⟨harr, hykey.trans hxkey.symm, fun k hk => hnot k (mem_update_next hp hk)⟩
  · intro j₁ j₂ x₁ x₂ hx₁ hx₂ y hy₁ hy₂
    rcases hcases j₁ x₁ hx₁ y hy₁ with ⟨rfl, rfl, _⟩ | ⟨z₁, hz₁, _, hy₁⟩
    · rcases hcases j₂ x₂ hx₂ y hy₂ with ⟨rfl, _, _⟩ | ⟨z₂, hz₂, _, hy₂⟩
      · rfl
      · exact (hfresh j₂ z₂ hz₂ hy₂).elim
    · rcases hcases j₂ x₂ hx₂ y hy₂ with ⟨_, rfl, _⟩ | ⟨z₂, hz₂, _, hy₂⟩
      · exact (hfresh j₁ z₁ hz₁ hy₁).elim
      · exact ho.unique j₁ j₂ z₁ z₂ hz₁ hz₂ y hy₁ hy₂

theorem Once.step [DecidableEq κ] (hr : Fits key dest r) (ho : Once key r)
    (h : Step key dest r r') : Once key r' := by
  cases h with
  | arrive m hnew =>
      refine ho.mono (fun x hx => List.mem_append_left _ hx) (fun x hx i hi => ?_)
        fun d h hd _ => ⟨h, hd, rfl, rfl⟩
      simp only [enqueue_eq, List.mem_append] at hi
      rcases hi with hi | hi
      · exact hi
      · split at hi
        · rw [List.mem_singleton.mp hi] at hx
          exact (hnew hx).elim
        · cases hi
  | load _ _ _ | forget _ _ => exact ⟨ho.taken, ho.unique⟩
  | dropMissing hp _ _ | drop hp _ _ _ =>
      exact ho.mono (fun x hx => hx) (fun x _ i hi => mem_update_next hp hi)
        fun d h hd _ => ⟨h, hd, rfl, rfl⟩
  | deliver hp hheld hd _ => exact ho.deliver hr hp hheld hd
  | register i k wants closed =>
      refine ho.mono (fun x hx => hx) (fun x _ i hi => hi) fun d h hd hne => ?_
      rcases getElem?_append_cases hd with hold | ⟨_, rfl⟩
      · exact ⟨h, hold, rfl, rfl⟩
      · exact (hne rfl).elim
  | @close d h hd =>
      refine ho.mono (fun x hx => hx) (fun x _ i hi => hi) fun d' h' hd' _ => ?_
      rcases getElem?_set_cases hd' with ⟨rfl, rfl⟩ | ⟨_, hold⟩
      · exact ⟨h, hd, rfl, rfl⟩
      · exact ⟨h', hold, rfl, rfl⟩

end

/-! ## Every run -/

def initial : Router μ κ := ⟨[], fun _ => [], fun _ => none, fun _ _ => none, []⟩

/-- All that holds in every state of every run. -/
structure Sound [DecidableEq κ] (r : Router μ κ) : Prop where
  fits : Fits key dest r
  delivered : Delivered key dest r
  once : Once key r

section

variable {key dest} [DecidableEq κ]

theorem Sound.initial : Sound key dest (initial : Router μ κ) where
  fits :=
    { nodup := List.nodup_nil
      flow := fun _ => List.nil_suffix
      since := fun _ _ h => by simp [Router.initial] at h
      table := fun _ _ _ h => by cases h
      held := fun _ _ h => by cases h }
  delivered := fun _ _ h => by simp [Router.initial] at h
  once :=
    { taken := fun _ _ h => by simp [Router.initial] at h
      unique := fun _ _ _ _ h => by simp [Router.initial] at h }

theorem Sound.step {r r' : Router μ κ} (hr : Sound key dest r) (h : Step key dest r r') :
    Sound key dest r' :=
  ⟨hr.fits.step h, hr.delivered.step hr.fits h, hr.once.step hr.fits h⟩

theorem Sound.run {r r' : Router μ κ} (hr : Sound key dest r)
    (h : Relation.ReflTransGen (Step key dest) r r') : Sound key dest r' := by
  induction h with
  | refl => exact hr
  | tail _ hstep ih => exact ih.step hstep

end

end Router

end BuilderShim.Foundation
