/-
  Foundation/Chan.lean --- buffered channels.

  A channel is the list of what was sent and not yet received, oldest first, and
  never holds more than its capacity.  Sending into a full channel and receiving
  from an empty one have no result: the goroutine waits.
-/
import Mathlib.Data.List.Basic

set_option autoImplicit false

namespace BuilderShim.Foundation

universe u

@[ext]
structure Chan (α : Type u) (cap : Nat) where
  items : List α
  bounded : items.length ≤ cap

namespace Chan

variable {α : Type u} {cap : Nat}

def empty : Chan α cap := ⟨[], Nat.zero_le _⟩

/-- `c <- x` -/
def send (c : Chan α cap) (x : α) : Option (Chan α cap) :=
  if h : c.items.length < cap then
    some ⟨c.items ++ [x], by rw [List.length_append, List.length_singleton]; exact h⟩
  else none

/-- `<-c` -/
def recv : Chan α cap → Option (α × Chan α cap)
  | ⟨[], _⟩ => none
  | ⟨x :: rest, h⟩ => some (x, ⟨rest, Nat.le_of_succ_le h⟩)

@[simp]
theorem items_empty : (empty : Chan α cap).items = [] := rfl

theorem items_of_send {c c' : Chan α cap} {x : α} (h : c.send x = some c') :
    c'.items = c.items ++ [x] := by
  unfold send at h
  split at h
  · rw [← Option.some.inj h]
  · cases h

theorem items_of_recv {c c' : Chan α cap} {x : α} (h : c.recv = some (x, c')) :
    c.items = x :: c'.items := by
  rcases c with ⟨items, hb⟩
  cases items with
  | nil => cases h
  | cons y rest =>
      cases h
      rfl

theorem exists_send {c : Chan α cap} (h : c.items.length < cap) (x : α) :
    ∃ c', c.send x = some c' := by
  unfold send
  rw [dif_pos h]
  exact ⟨_, rfl⟩

theorem exists_recv {c : Chan α cap} {x : α} {rest : List α} (h : c.items = x :: rest) :
    ∃ c', c.recv = some (x, c') := by
  rcases c with ⟨items, hb⟩
  subst h
  exact ⟨_, rfl⟩

theorem send_eq_none_iff {c : Chan α cap} {x : α} :
    c.send x = none ↔ c.items.length = cap := by
  have hb := c.bounded
  unfold send
  split
  · simp only [reduceCtorEq, false_iff]
    omega
  · simp only [true_iff]
    omega

end Chan

end BuilderShim.Foundation
