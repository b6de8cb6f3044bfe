/-
  Stdio/Write.lean --- the console of a build (StdioProxy.Write, pkg/stdio/stdio.go).

  A payload is copied into the one buffer of the proxy, and the packet that is sent has a
  slice of that buffer for its data: what goes out is what the buffer has when the packet
  is marshalled, which is before the host acknowledges it and the call returns.  So one
  call after another sends what it was given, if that fits: the slice of a longer payload
  is out of the bounds of the buffer, and the call panics.

  A call is a sequence of steps (`Step`).  The payloads of the calls so far are kept in
  the state for the statements.
-/
import Mathlib.Algebra.Group.Nat.Defs
import Mathlib.Data.List.Induction
import BuilderShim.Foundation.Bytes
import BuilderShim.Foundation.Machine

set_option autoImplicit false

namespace BuilderShim.Stdio

open BuilderShim.Foundation

/-- The size of the buffer. -/
def bufSize : Nat := 2 ^ 20

/-- `copy(dst, src)` -/
def copyInto (dst src : Bytes) : Bytes := src.take dst.length ++ dst.drop src.length

/-- `api.Stdio` -/
inductive StdioType where
  | stdin | stdout | stderr
  deriving DecidableEq, Repr

/-- An `IO` packet as it is sent. -/
structure IoPacket where
  buildId : Nat
  type : StdioType
  data : Bytes
  deriving DecidableEq

/-- Where the call of `Write` has got to, if there is one. -/
inductive Phase where
  | idle
  /-- the request is made; the data of its packet are the first `n` bytes of the buffer -/
  | queued (id n : Nat)
  /-- the packet is sent, and not acknowledged yet -/
  | waiting (id n : Nat)
  | panicked
  deriving DecidableEq

/-- `StdioProxy`, as far as `Write` uses it, and what has happened. -/
structure State where
  buf : Bytes
  phase : Phase
  /-- the packets that were sent -/
  sent : List IoPacket
  /-- what the calls returned; `none` is an error -/
  returned : List (Option Nat)
  /-- the payloads of the calls -/
  calls : List Bytes

/-- `NewStdioProxy` -/
def newStdioProxy : State := ⟨List.replicate bufSize 0, .idle, [], [], []⟩

inductive Event where
  /-- `Write` is called; the id is made up by `uuid.NewString` -/
  | call (id : Nat) (p : Bytes)
  /-- the sender of the stream marshals the packet -/
  | send
  /-- the host acknowledges the packet with this id -/
  | ack (id : Nat)
  /-- the request fails -/
  | fail

inductive Step : State → Event → State → Prop
  | call {s : State} (id : Nat) {p : Bytes} (h : s.phase = .idle)
      (hfits : p.length ≤ (copyInto s.buf p).length) :
      Step s (.call id p)
        { s with
          buf := copyInto s.buf p
          phase := .queued id p.length
          calls := s.calls ++ [p] }
  /-- `r.buf[0:len(p)]` is out of range -/
  | panic {s : State} (id : Nat) {p : Bytes} (h : s.phase = .idle)
      (hlong : (copyInto s.buf p).length < p.length) :
      Step s (.call id p)
        { s with
          buf := copyInto s.buf p
          phase := .panicked
          calls := s.calls ++ [p] }
  | send {s : State} {id n : Nat} (h : s.phase = .queued id n) :
      Step s .send
        { s with
          phase := .waiting id n
          sent := s.sent ++ [⟨id, .stderr, s.buf.take n⟩] }
  | ack {s : State} {id n : Nat} (h : s.phase = .waiting id n) :
      Step s (.ack id)
        { s with
          phase := .idle
          returned := s.returned ++ [some (s.buf.take n).length] }
  | failQueued {s : State} {id n : Nat} (h : s.phase = .queued id n) :
      Step s .fail { s with phase := .idle, returned := s.returned ++ [none] }
  | failWaiting {s : State} {id n : Nat} (h : s.phase = .waiting id n) :
      Step s .fail { s with phase := .idle, returned := s.returned ++ [none] }

/-- The calls are made with these payloads, one after another, and none of them fails. -/
def Sequence (payloads : List Bytes) (s : State) : Event → Prop
  | .call _ p => s.calls ++ [p] <+: payloads
  | .send => True
  | .ack _ => True
  | .fail => False

/-- Everything is sent: no call panics; when all have returned, each has
returned the length of its payload, and the data of the packets are the payloads; and all can
return. -/
structure SentWhole (payloads : List Bytes) : Prop where
  safe : ∀ s, Reach Step (Sequence payloads) newStdioProxy s → s.phase ≠ .panicked
  all_sent : ∀ s, Reach Step (Sequence payloads) newStdioProxy s → s.calls = payloads →
    s.phase = .idle →
      s.returned = payloads.map (fun p => some p.length) ∧
        (s.sent.map IoPacket.data).flatten = payloads.flatten
  completes : ∃ s, Reach Step (Sequence payloads) newStdioProxy s ∧ s.calls = payloads ∧
    s.phase = .idle

/-! ## The buffer -/

theorem length_copyInto (dst src : Bytes) : (copyInto dst src).length = dst.length := by
  unfold copyInto
  rw [List.length_append, List.length_take, List.length_drop]
  omega

/-- The payload is at the start of the buffer, if it fits. -/
theorem take_copyInto {dst src : Bytes} (h : src.length ≤ dst.length) :
    (copyInto dst src).take src.length = src := by
  unfold copyInto
  rw [List.take_of_length_le h, List.take_left]

/-! ## What is true in every state -/

/-- How far the calls have got: all but the last one have sent their payload and returned. -/
def Progress (s : State) : Prop :=
  match s.phase with
  | .idle =>
      s.sent.map IoPacket.data = s.calls ∧ s.returned = s.calls.map fun p => some p.length
  | .queued _ n =>
      ∃ before p, s.calls = before ++ [p] ∧ n = p.length ∧ s.buf.take n = p ∧
        s.sent.map IoPacket.data = before ∧ s.returned = before.map fun p => some p.length
  | .waiting _ n =>
      ∃ before p, s.calls = before ++ [p] ∧ n = p.length ∧ s.buf.take n = p ∧
        s.sent.map IoPacket.data = before ++ [p] ∧
        s.returned = before.map fun p => some p.length
  | .panicked => ∃ p ∈ s.calls, bufSize < p.length

structure Good (payloads : List Bytes) (s : State) : Prop where
  size : s.buf.length = bufSize
  calls : s.calls <+: payloads
  progress : Progress s

theorem good_new (payloads : List Bytes) : Good payloads newStdioProxy where
  size := List.length_replicate
  calls := List.nil_prefix
  progress := ⟨rfl, rfl⟩

variable {payloads : List Bytes} {s : State}

theorem Good.step {t : State} {e : Event} (h : Good payloads s) (hC : Sequence payloads s e)
    (hstep : Step s e t) : Good payloads t := by
  obtain ⟨hsize, hcalls, hprogress⟩ := h
  unfold Progress at hprogress
  cases hstep with
  | @call id p hidle hfits =>
      rw [hidle] at hprogress
      obtain ⟨hsent, hreturned⟩ := hprogress
      rw [length_copyInto] at hfits
      exact ⟨(length_copyInto _ _).trans hsize, hC,
        s.calls, p, rfl, rfl, take_copyInto hfits, hsent, hreturned⟩
  | @panic id p hidle hlong =>
      rw [length_copyInto, hsize] at hlong
      exact ⟨(length_copyInto _ _).trans hsize, hC,
        p, List.mem_append_right _ List.mem_cons_self, hlong⟩
  | send hqueued =>
      rw [hqueued] at hprogress
      obtain ⟨before, p, hlast, hn, hbuf, hsent, hreturned⟩ := hprogress
      refine ⟨hsize, hcalls, before, p, hlast, hn, hbuf, ?_, hreturned⟩
      rw [List.map_append, hsent, List.map_singleton, hbuf]
  | ack hwaiting =>
      rw [hwaiting] at hprogress
      obtain ⟨before, p, hlast, hn, hbuf, hsent, hreturned⟩ := hprogress
      refine ⟨hsize, hcalls, hsent.trans hlast.symm, ?_⟩
      change s.returned ++ [some (s.buf.take _).length] = s.calls.map _
      rw [hreturned, hbuf, hlast, List.map_append, List.map_singleton]
  | failQueued _ => exact hC.elim
  | failWaiting _ => exact hC.elim

theorem good_of_reach (h : Reach Step (Sequence payloads) newStdioProxy s) : Good payloads s :=
  h.invariant (good_new payloads) fun _ _ _ hs hC hstep => hs.step hC hstep

/-! ## Calls that return, and one that does not -/

/-- A call with a payload that fits sends it and returns. -/
theorem exists_write {p : Bytes} (hidle : s.phase = .idle) (hfits : p.length ≤ s.buf.length)
    (hnext : s.calls ++ [p] <+: payloads) :
    ∃ t, Reach Step (Sequence payloads) s t ∧ t.calls = s.calls ++ [p] ∧ t.phase = .idle ∧
      t.buf.length = s.buf.length := by
  have hC : Sequence payloads s (.call 0 p) := hnext
  have hsend : ∀ t, Sequence payloads t .send := fun _ => trivial
  have hack : ∀ t, Sequence payloads t (.ack 0) := fun _ => trivial
  have hcall := Step.call 0 hidle (le_of_le_of_eq hfits (length_copyInto s.buf p).symm)
  have hrun := ((Reach.single hC hcall).tail (hsend _) (Step.send rfl)).tail (hack _) (Step.ack rfl)
  exact ⟨_, hrun, rfl, rfl, length_copyInto _ _⟩

/-- All calls return as long as the payloads fit. -/
theorem exists_writes (before : List Bytes) (hbefore : before <+: payloads)
    (hfits : ∀ p ∈ before, p.length ≤ bufSize) :
    ∃ s, Reach Step (Sequence payloads) newStdioProxy s ∧ s.calls = before ∧ s.phase = .idle := by
  induction before using List.reverseRecOn with
  | nil => exact ⟨newStdioProxy, Reach.refl _, rfl, rfl⟩
  | append_singleton before p ih =>
      obtain ⟨s, hrun, hcalls, hidle⟩ := ih ((List.prefix_append _ _).trans hbefore) fun q hq =>
        hfits q (List.mem_append_left _ hq)
      have hroom : p.length ≤ s.buf.length := by
        rw [(good_of_reach hrun).size]
        exact hfits p (List.mem_append_right _ List.mem_cons_self)
      rw [← hcalls] at hbefore ⊢
      obtain ⟨t, hwrite, hlast, ht, _⟩ := exists_write hidle hroom hbefore
      exact ⟨t, hrun.trans hwrite, hlast, ht⟩

/-- The first payload that does not fit makes its call panic. -/
theorem exists_panic {before rest : List Bytes} {p : Bytes}
    (hsplit : payloads = before ++ p :: rest) (hfits : ∀ q ∈ before, q.length ≤ bufSize)
    (hlong : bufSize < p.length) :
    ∃ s, Reach Step (Sequence payloads) newStdioProxy s ∧ s.phase = .panicked := by
  have hbefore : before <+: payloads := ⟨p :: rest, hsplit.symm⟩
  obtain ⟨s, hrun, hcalls, hidle⟩ := exists_writes before hbefore hfits
  have hnext : Sequence payloads s (.call 0 p) := by
    change s.calls ++ [p] <+: payloads
    rw [hcalls, hsplit]
    exact ⟨rest, by rw [List.append_assoc, List.singleton_append]⟩
  have hpanic : (copyInto s.buf p).length < p.length := by
    rwa [length_copyInto, (good_of_reach hrun).size]
  exact ⟨_, hrun.tail hnext (Step.panic 0 hidle hpanic), rfl⟩

theorem exists_first_long (h : ¬ ∀ p ∈ payloads, p.length ≤ bufSize) :
    ∃ before p rest, payloads = before ++ p :: rest ∧ (∀ q ∈ before, q.length ≤ bufSize) ∧
      bufSize < p.length := by
  induction payloads with
  | nil => exact absurd (fun _ hp => absurd hp List.not_mem_nil) h
  | cons p payloads ih =>
      by_cases hp : p.length ≤ bufSize
      · obtain ⟨before, q, rest, rfl, hbefore, hq⟩ := ih fun hall =>
          h (List.forall_mem_cons.mpr ⟨hp, hall⟩)
        exact ⟨p :: before, q, rest, rfl, List.forall_mem_cons.mpr ⟨hp, hbefore⟩, hq⟩
      · exact ⟨[], p, payloads, rfl, fun _ hq => absurd hq List.not_mem_nil, Nat.lt_of_not_le hp⟩

/-- Everything is sent exactly if every payload fits into the buffer. -/
theorem sentWhole_iff (payloads : List Bytes) :
    SentWhole payloads ↔ ∀ p ∈ payloads, p.length ≤ bufSize := by
  constructor
  · intro hwhole
    by_contra hlong
    obtain ⟨before, p, rest, hsplit, hfits, hp⟩ := exists_first_long hlong
    obtain ⟨s, hrun, hpanicked⟩ := exists_panic hsplit hfits hp
    exact hwhole.safe s hrun hpanicked
  · intro hfits
    refine ⟨fun s hrun hpanicked => ?_, fun s hrun hall hidle => ?_,
      exists_writes payloads List.prefix_rfl hfits⟩
    · obtain ⟨_, hcalls, hprogress⟩ := good_of_reach hrun
      unfold Progress at hprogress
      rw [hpanicked] at hprogress
      obtain ⟨p, hp, hlong⟩ := hprogress
      exact absurd (hfits p (hcalls.subset hp)) (Nat.not_le_of_lt hlong)
    · obtain ⟨_, _, hprogress⟩ := good_of_reach hrun
      unfold Progress at hprogress
      rw [hidle] at hprogress
      obtain ⟨hsent, hreturned⟩ := hprogress
      rw [hall] at hsent hreturned
      exact ⟨hreturned, congrArg List.flatten hsent⟩

/-- A payload that is one byte too long. -/
theorem long_write_panics :
    ∃ s, Reach Step (Sequence [List.replicate (bufSize + 1) 0]) newStdioProxy s ∧
      s.phase = .panicked ∧ s.sent = [] := by
  have hlong : (copyInto newStdioProxy.buf (List.replicate (bufSize + 1) 0)).length <
      (List.replicate (bufSize + 1) (0 : UInt8)).length := by
    rw [length_copyInto, List.length_replicate]
    exact Nat.lt_of_le_of_lt (Nat.le_of_eq List.length_replicate) (Nat.lt_succ_self _)
  have hC : Sequence [List.replicate (bufSize + 1) 0] newStdioProxy
      (.call 0 (List.replicate (bufSize + 1) 0)) := List.prefix_rfl
  exact ⟨_, Reach.single hC (Step.panic 0 rfl hlong), rfl, rfl⟩

end BuilderShim.Stdio
