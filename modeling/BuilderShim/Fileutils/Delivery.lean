/-
  Fileutils/Delivery.lean --- a transfer whose packets are known.

  The stream is the header and the data of one archive, cut into any packets, or
  the beginning of one, which then breaks off or carries an error packet.  In the
  first case what is still to come is known at every point, in the second that an
  error is; `Feed` is what the receiver relies on.  Whenever the receiver waits it
  can go on or the goroutine can, and the goroutine cannot go on for ever.
-/
import BuilderShim.Foundation.Total
import BuilderShim.Fileutils.ReceiveSpec
import BuilderShim.Fileutils.TarStream

set_option autoImplicit false

namespace BuilderShim.Fileutils

open BuilderShim.Foundation
open BuilderShim.Posix
open BuilderShim.Stream

/-! ## Streams -/

/-- The packets after the header: data of which only the last is marked complete, or, without
it, data that stops or is followed by an error packet.  `some` holds the data in all. -/
inductive Chunks : Option Bytes → List ClientStream → Prop
  | last {p : ClientStream} {rest : List ClientStream} {data : Bytes}
      (h : tarPacket p = .data data true) : Chunks (some data) (p :: rest)
  | more {p : ClientStream} {rest : List ClientStream} {data : Bytes} {goal : Option Bytes}
      (h : tarPacket p = .data data false) (hrest : Chunks goal rest) :
      Chunks (goal.map (data ++ ·)) (p :: rest)
  | cut : Chunks none []
  | error {p : ClientStream} {rest : List ClientStream} {msg : Bytes}
      (h : tarPacket p = .error msg) : Chunks none (p :: rest)

/-- The whole stream: a packet with the digest, not complete, and the data; or less. -/
inductive Packets (d : Bytes) : Option Bytes → List ClientStream → Prop
  | header {p : ClientStream} {rest : List ClientStream} {goal : Option Bytes}
      (h : tarPacket p = .header ⟨d, false⟩) (hrest : Chunks goal rest) :
      Packets d goal (p :: rest)
  | cut : Packets d none []
  | error {p : ClientStream} {rest : List ClientStream} {msg : Bytes}
      (h : tarPacket p = .error msg) : Packets d none (p :: rest)

/-! ## The system -/

/-- The operations of the receiver, with a callback that answers from the calls it has had. -/
def fnExec (fn : List WalkEntry → WalkEntry → Verdict) : Exec HostSig TarLink
  | .visit entry, l, v, l' =>
      v = fn l.visited entry ∧ l' = { l with visited := l.visited ++ [entry] }
  | op, l, r, l' => tarExec op l r l'

/-- What happens to the link besides: the goroutine goes on, and the demultiplexer may come to
its end, once. -/
inductive Onward (mayEnd : Bool) : TarLink → TarLink → Prop
  | producer {l l' : TarLink} (h : StartTarStep l l') : Onward mayEnd l l'
  | ends {l : TarLink} (e : Err) (hend : mayEnd = true) (hopen : l.demuxErr = none) :
      Onward mayEnd l { l with demuxErr := some e }

section

variable {σ ρ : Type}

/-- A transfer in which the context of `Receive` is never cancelled. -/
inductive DeliveryStep (E : Exec FsSig σ) (fn : List WalkEntry → WalkEntry → Verdict)
    (mayEnd : Bool) : Transfer σ ρ → Transfer σ ρ → Prop
  | receiver {s : Transfer σ ρ} {p : Recv ρ} {t : σ × TarLink}
      (h : Step (Exec.join Prod.fst Prod.snd E (fnExec fn)) s.receiver (s.world, s.link) p t) :
      DeliveryStep E fn mayEnd s ⟨p, t.1, t.2⟩
  | link {s : Transfer σ ρ} {l : TarLink} (h : Onward mayEnd s.link l) :
      DeliveryStep E fn mayEnd s { s with link := l }

theorem fnExec_tarExec {fn : List WalkEntry → WalkEntry → Verdict} {op : HostOp}
    {r : HostOp.Res op} {l l' : TarLink} (h : fnExec fn op l r l') : tarExec op l r l' := by
  cases op with
  | visit entry => exact h.2
  | _ => exact h

/-- It is one of the transfers of `TransferStep`. -/
theorem DeliveryStep.transferStep {E : Exec FsSig σ} {fn : List WalkEntry → WalkEntry → Verdict}
    {mayEnd : Bool} {s t : Transfer σ ρ} (h : DeliveryStep E fn mayEnd s t) :
    ∃ e, (∀ err, e ≠ .cancel err) ∧ TransferStep E s e t := by
  cases h with
  | @receiver p t h =>
      refine ⟨.receiver, fun _ h => (by cases h), .receiver (h.mono ?_)⟩
      intro op s r s' hE
      cases op with
      | inl op => exact hE
      | inr op => exact ⟨fnExec_tarExec hE.1, hE.2⟩
  | link h =>
      cases h with
      | producer h => exact ⟨.producer, fun _ h => (by cases h), .producer h⟩
      | ends e _ _ => exact ⟨.cancelDemux e, fun _ h => (by cases h), .cancelDemux e⟩

end

/-! ## The goroutine comes to rest -/

/-- A bound on the steps from each point on, with those of packets that are yet to come. -/
def TarPoint.rank : TarPoint → Nat
  | .recv => 6
  | .sendHeader _ => 13
  | .sendData _ _ => 12
  | .sendErr _ true => 8
  | .sendErr _ false => 5
  | .closeData => 3
  | .closeHeader => 2
  | .closeErr => 1
  | .returned => 0

def TarLink.rank (l : TarLink) : Nat :=
  8 * l.packets.length + l.producer.rank + l.errCh.items.length + l.headerCh.items.length +
    (if l.demuxErr = none then 1 else 0)

theorem TarPacket.next_rank (p : TarPacket) : p.next.rank ≤ 13 := by
  cases p <;> exact Nat.le_of_ble_eq_true rfl

theorem TarPoint.afterSend_rank (complete : Bool) : (TarPoint.afterSend complete).rank ≤ 6 := by
  cases complete <;> exact Nat.le_of_ble_eq_true rfl

theorem StartTarStep.rank_lt {l l' : TarLink} (h : StartTarStep l l') : l'.rank < l.rank := by
  cases h with
  | @recv resp rest hp hpackets =>
      have hnext := (tarPacket resp).next_rank
      have hrank : l.producer.rank = 6 := by rw [hp, TarPoint.rank]
      simp only [TarLink.rank, hrank, hpackets, List.length_cons]
      omega
  | recvDone hp _ =>
      simp only [TarLink.rank, hp, TarPoint.rank]
      omega
  | @sendHeader h _ hp hch =>
      have hafter := TarPoint.afterSend_rank h.complete
      have hrank : l.producer.rank = 13 := by rw [hp, TarPoint.rank]
      simp only [TarLink.rank, hrank, Chan.items_of_send hch, List.length_append,
        List.length_singleton]
      omega
  | @sendErr e again _ hp hch =>
      simp only [TarLink.rank, hp, Chan.items_of_send hch, List.length_append,
        List.length_singleton]
      cases again with
      | true =>
          simp only [TarPoint.rank, if_true]
          omega
      | false =>
          simp only [TarPoint.rank, Bool.false_eq_true, if_false]
          omega
  | closeData hp | closeHeader hp | closeErr hp =>
      simp only [TarLink.rank, hp, TarPoint.rank]
      omega

theorem Onward.rank_lt {mayEnd : Bool} {l l' : TarLink} (h : Onward mayEnd l l') :
    l'.rank < l.rank := by
  cases h with
  | producer h => exact h.rank_lt
  | ends e _ hopen =>
      simp only [TarLink.rank, hopen, if_true, reduceCtorEq, if_false]
      omega

end BuilderShim.Fileutils
