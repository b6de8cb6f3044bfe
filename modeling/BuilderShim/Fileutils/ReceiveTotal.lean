/-
  Fileutils/ReceiveTotal.lean --- a call of `Receive` returns.

  What it asks of the file system is answered at once, but for the lock, which
  nobody else holds here.  On the stream it may have to wait, and then the goroutine
  can go on; each round of its two loops leaves less to come.
-/
import BuilderShim.Posix.Snapshot
import BuilderShim.Fileutils.Phases
import BuilderShim.Fileutils.UnpackExact
import BuilderShim.Fileutils.WalkOrder

set_option autoImplicit false

namespace BuilderShim.Fileutils

open BuilderShim.Filepath
open BuilderShim.Foundation
open BuilderShim.Posix
open BuilderShim.Stream

/-! ## Programs that do not wait -/

/-- The program makes finitely many calls, none of them for a lock. -/
abbrev NeverWaits {α : Type} (p : Sys α) : Prop := Prog.Ends (S := FsSig) FsOp.Unblocked p

theorem neverWaits_bind {α β : Type} {p : Sys α} {f : α → Sys β} (hp : NeverWaits p)
    (hf : ∀ a, NeverWaits (f a)) : NeverWaits (p >>= f) :=
  Prog.Ends.bind hp hf

theorem Ends.neverWaits {α : Type} {p : Sys α} (h : Ends p) : NeverWaits p :=
  Prog.Ends.mono h fun _ => FsOp.Answered.unblocked

theorem tempNames (suf : Bytes) (hsuf : slash ∉ suf) (n : Nat) :
    Name (lit ".context-" ++ digits n ++ suf) :=
  (temp_name n suf hsuf).1

theorem checkCache_neverWaits (cachePath : Bytes) : NeverWaits (checkCache cachePath) := by
  refine neverWaits_bind (Prog.Ends.perform trivial) fun r => ?_
  split
  · exact .ret _
  · exact .ret _
  · split
    · exact .ret _
    · refine neverWaits_bind (Prog.Ends.perform trivial) fun r => ?_
      split
      · exact .ret _
      · exact .ret _
      · split
        · exact .ret _
        · refine neverWaits_bind (Prog.Ends.perform trivial) fun r => ?_
          split
          · exact .ret _
          · exact .ret _

theorem writeTar_neverWaits (base data : Bytes) : NeverWaits (writeTar base data) := by
  refine neverWaits_bind (Prog.Ends.perform (tempNames _ (by decide))) fun r => ?_
  split
  · exact .ret _
  · refine neverWaits_bind (Prog.Ends.perform trivial) fun r => ?_
    split
    · refine neverWaits_bind (Prog.Ends.perform trivial) fun _ => ?_
      exact neverWaits_bind (Prog.Ends.perform trivial) fun _ => .ret _
    · refine neverWaits_bind (Prog.Ends.perform trivial) fun r => ?_
      split
      · exact neverWaits_bind (Prog.Ends.perform trivial) fun _ => .ret _
      · exact .ret _

theorem verifyTarHash_neverWaits (x : Extern) (path checksum : Bytes) :
    NeverWaits (verifyTarHash x path checksum) := by
  refine neverWaits_bind (Prog.Ends.perform trivial) fun r => ?_
  split
  · exact .ret _
  · dsimp only
    split
    · exact .ret _
    · exact .ret _

theorem removePlan_neverWaits (path : Bytes) (plan : List Loc) :
    NeverWaits (Os.removePlan path plan) := by
  induction plan with
  | nil => exact .ret _
  | cons rel plan ih =>
      refine neverWaits_bind (Prog.Ends.perform trivial) fun r => neverWaits_bind ih fun rest => ?_
      split
      · exact .ret _
      · exact .ret _
      · exact .ret _

theorem removeAll_neverWaits (path : Bytes) : NeverWaits (Os.removeAll path) := by
  refine neverWaits_bind (Prog.Ends.perform trivial) fun r => ?_
  split
  · exact .ret _
  · exact .ret _
  · refine neverWaits_bind (Prog.Ends.perform trivial) fun r => ?_
    split
    · exact .ret _
    · exact removePlan_neverWaits path _

theorem writeFile_neverWaits (path data : Bytes) (perm : Nat) :
    NeverWaits (Os.writeFile path data perm) := by
  refine neverWaits_bind (Prog.Ends.perform trivial) fun r => ?_
  split
  · exact .ret _
  · refine neverWaits_bind (Prog.Ends.perform trivial) fun written => ?_
    refine neverWaits_bind (Prog.Ends.perform trivial) fun closed => ?_
    split
    · exact .ret _
    · exact .ret _

theorem publishTemp_neverWaits (x : Extern) (tarFile cacheDir tempDir : Bytes) :
    NeverWaits (publishTemp x tarFile cacheDir tempDir) := by
  refine neverWaits_bind (unpackTar_ends _ _ _).neverWaits fun r => ?_
  split
  · exact .ret _
  · refine neverWaits_bind (writeFile_neverWaits _ _ _) fun r => ?_
    split
    · exact .ret _
    · exact neverWaits_bind (Prog.Ends.perform trivial) fun _ => .ret _

theorem publishLocked_neverWaits (x : Extern) (tarFile cacheDir cacheBase : Bytes) :
    NeverWaits (publishLocked x tarFile cacheDir cacheBase) := by
  refine neverWaits_bind (checkCache_neverWaits _) fun r => ?_
  split
  · exact .ret _
  · exact .ret _
  · refine neverWaits_bind (removeAll_neverWaits _) fun r => ?_
    split
    · exact .ret _
    · refine neverWaits_bind (Prog.Ends.perform (tempNames _ (by decide))) fun r => ?_
      split
      · exact .ret _
      · refine neverWaits_bind (publishTemp_neverWaits _ _ _ _) fun r => ?_
        split
        · exact .ret _
        · exact neverWaits_bind (removeAll_neverWaits _) fun _ => .ret _

/-! ## The parts of a call -/

/-- A part of the call `i` returns, whatever the goroutine does meanwhile. -/
abbrev RecvTotal {α : Type} (i : Nat) (fn : List WalkEntry → WalkEntry → Verdict) (mayEnd : Bool)
    (P : World × TarLink → Prop) (p : Recv α) (Q : α → World × TarLink → Prop) : Prop :=
  Total (Exec.join Prod.fst Prod.snd (exec .calm i) (fnExec fn))
    (Either Prod.fst Prod.snd (fun _ _ => False) (Onward mayEnd)) P p Q

/-- What is known of the file system and of the stream. -/
abbrev Beside (P : World → Prop) (K : TarLink → Prop) : World × TarLink → Prop :=
  Both Prod.fst Prod.snd P K

/-- The walk has not begun. -/
def Idle (K : TarLink → Prop) (l : TarLink) : Prop := K l ∧ l.visited = []

section

variable {α : Type} {i : Nat} {fn : List WalkEntry → WalkEntry → Verdict} {mayEnd : Bool}
variable {goal : Option Bytes} {l l' : TarLink} {d : Bytes} {h : TarStreamHeader} {n : Nat}
variable {K : TarLink → Prop} {P : World → Prop}

theorem Onward.visited_eq (hstep : Onward mayEnd l l') : l'.visited = l.visited := by
  cases hstep with
  | ends _ _ _ => rfl
  | producer hstep => cases hstep <;> rfl

theorem idle_stable (hK : Stable (Onward mayEnd) K) : Stable (Onward mayEnd) (Idle K) :=
  fun _ _ hstep hl => ⟨hK _ _ hstep hl.1, hstep.visited_eq.trans hl.2⟩

theorem rank_stable (k : Nat) : Stable (Onward mayEnd) fun l => k + l.rank < n := by
  intro l l' hstep hl
  have := hstep.rank_lt
  omega

theorem onward_wellFounded (mayEnd : Bool) :
    WellFounded fun t s : World × TarLink =>
      Either Prod.fst Prod.snd (fun _ _ => False) (Onward mayEnd) s t := by
  refine Subrelation.wf ?_ (measure fun s : World × TarLink => s.2.rank).wf
  rintro t s (⟨hfalse, _⟩ | ⟨hstep, _⟩)
  · exact hfalse.elim
  · exact hstep.rank_lt

/-- What a program asks of the file system beside the stream. -/
theorem total_sys {p : Sys α} (hK : Stable (Onward mayEnd) K) (hp : NeverWaits p)
    (hkeep : ∀ op : FsOp, op.Unblocked → ∀ w r w', P w → exec .calm i op w r w' → P w') :
    RecvTotal i fn mayEnd (Beside P K) (Recv.sys p) fun _ => Beside P K :=
  total_ends (onward_wellFounded mayEnd) (fun _ _ hfalse => hfalse.elim) hK
    (fun op hop w _ => exec_unblocked .calm i op hop w) hkeep hp

theorem total_unlocked {p : Sys α} (hK : Stable (Onward mayEnd) K) (hp : NeverWaits p) :
    RecvTotal i fn mayEnd (Beside World.Unlocked K) (Recv.sys p)
      fun _ => Beside World.Unlocked K :=
  total_sys hK hp fun _ hop _ _ _ hw hE => nominal_unlocked hop hw (exec_calm hE)

theorem total_any {p : Sys α} (hK : Stable (Onward mayEnd) K) (hp : NeverWaits p) :
    RecvTotal i fn mayEnd (Beside (fun _ => True) K) (Recv.sys p)
      fun _ => Beside (fun _ => True) K :=
  total_sys hK hp fun _ _ _ _ _ _ _ => trivial

/-- One operation on the file system. -/
theorem total_op (op : FsOp) {M : FsOp.Res op → World → Prop} (hK : Stable (Onward mayEnd) K)
    (hlive : ∀ w, P w → ∃ r w', exec .calm i op w r w')
    (hop : ∀ w r w', P w → exec .calm i op w r w' → M r w') :
    RecvTotal i fn mayEnd (Beside P K) (Prog.perform (S := RecvSig) (.inl op))
      fun r => Beside (M r) K :=
  total_left (onward_wellFounded mayEnd) (fun _ _ hfalse => hfalse.elim) hK hlive hop

/-- What it asks of the stream. -/
theorem total_host (op : HostOp) {M : HostOp.Res op → TarLink → Prop}
    (hK : Stable (Onward mayEnd) K)
    (hlive : ∀ l, K l → (∃ r l', fnExec fn op l r l') ∨ ∃ l', Onward mayEnd l l')
    (hop : ∀ l r l', K l → fnExec fn op l r l' → M r l') :
    RecvTotal i fn mayEnd (Beside P K) (Prog.perform (S := RecvSig) (.inr op))
      fun r => Beside P (M r) :=
  total_right (onward_wellFounded mayEnd) (fun _ _ hfalse => hfalse.elim) hK hlive hop

/-! ## The header -/

/-- What is left to come after an answer of the header `select`. -/
def HeaderEvent.Lowers (header err : Bool) (n : Nat) : HeaderEvent → TarLink → Prop
  | .headerClosed, l => err.toNat + l.rank < n
  | .errClosed, l => header.toNat + l.rank < n
  | .err _, l => header.toNat + err.toNat + l.rank < n
  | .header _, _ | .done _, _ => True

theorem rank_recvErr {e : Option Err} {ch : Chan (Option Err) 1}
    (hch : l.errCh.recv = some (e, ch)) : ({ l with errCh := ch } : TarLink).rank < l.rank := by
  simp only [TarLink.rank, Chan.items_of_recv hch, List.length_cons]
  omega

theorem HeaderSelected.lowers {header err : Bool} {r : HeaderEvent}
    (hs : HeaderSelected header err l r l') (hn : header.toNat + err.toNat + l.rank ≤ n) :
    r.Lowers header err n l' := by
  cases hs with
  | header _ _ | done _ => trivial
  | headerClosed hopen _ _ =>
      subst hopen
      simp only [HeaderEvent.Lowers, Bool.toNat_true] at hn ⊢
      omega
  | errClosed hopen _ _ =>
      subst hopen
      simp only [HeaderEvent.Lowers, Bool.toNat_true] at hn ⊢
      omega
  | err _ hch =>
      have := rank_recvErr hch
      simp only [HeaderEvent.Lowers]
      omega

theorem HeaderSelected.visited_eq {header err : Bool} {r : HeaderEvent}
    (hs : HeaderSelected header err l r l') : l'.visited = l.visited := by
  cases hs <;> rfl

theorem readTarStreamHeader_total :
    RecvTotal i fn goal.isNone (Beside World.Unlocked (Idle (Waiting d goal true true)))
      readTarStreamHeader fun r => Beside World.Unlocked (Idle (Read (Headed d goal) True r)) := by
  have hstable : ∀ b : Bool × Bool, Stable (Onward goal.isNone) (Idle (Waiting d goal b.1 b.2)) :=
    fun b => idle_stable (waiting_stable b.1 b.2)
  unfold readTarStreamHeader readTarStreamHeaderLoop Prog.loop
  refine total_iter (b := (true, true)) (onward_wellFounded _)
    (I := fun b : Bool × Bool => Beside World.Unlocked (Idle (Waiting d goal b.1 b.2)))
    (fun b s => b.1.toNat + b.2.toNat + s.2.rank)
    (M := fun (r : Except Err TarStreamHeader) =>
      Beside World.Unlocked (Idle (Read (Headed d goal) True r))) ?_ ?_ ?_
  · rintro b s t (⟨hfalse, _⟩ | ⟨hstep, heq⟩) ⟨hw, hl⟩
    · exact hfalse.elim
    · have hrank := hstep.rank_lt
      refine ⟨⟨heq ▸ hw, hstable b _ _ hstep hl⟩, ?_⟩
      omega
  · rintro ⟨header, err⟩ n
    simp only [Prog.bind_eq, Prog.pure_eq]
    split
    · rename_i hclosed
      refine total_ret fun s hs => ?_
      obtain ⟨⟨_, ⟨herr, _⟩, _⟩, _⟩ := hs
      rw [hclosed.2] at herr
      cases herr
    · refine total_bind (total_pre (total_host (.selectHeader header err) (P := World.Unlocked)
        (K := fun l => Idle (Waiting d goal header err) l ∧
          header.toNat + err.toNat + l.rank < n + 1)
        (M := fun r l => Idle (HeaderEvent.Leads (Headed d goal) (Waiting d goal) (goal = none)
          header err r) l ∧ HeaderEvent.Lowers header err n r l)
        ((hstable (header, err)).and (rank_stable _)) (fun l hl => hl.1.1.live) ?_) ?_) ?_
      · rintro l r l' ⟨⟨hl, hidle⟩, hn⟩ hs
        exact ⟨⟨hl.select hs, (HeaderSelected.visited_eq hs).trans hidle⟩,
          HeaderSelected.lowers hs (Nat.le_of_lt_succ hn)⟩
      · rintro s ⟨⟨hw, hl⟩, hn⟩
        exact ⟨hw, hl, Nat.lt_succ_of_le hn⟩
      · intro r
        cases r with
        | header hdr => exact total_ret fun s hs => ⟨hs.1, hs.2.1⟩
        | headerClosed =>
            refine total_ret fun s hs => ⟨⟨hs.1, hs.2.1⟩, ?_⟩
            have := hs.2.2
            simp only [HeaderEvent.Lowers, Bool.toNat_false] at this ⊢
            omega
        | errClosed =>
            refine total_ret fun s hs => ⟨⟨hs.1, hs.2.1⟩, ?_⟩
            have := hs.2.2
            simp only [HeaderEvent.Lowers, Bool.toNat_false] at this ⊢
            omega
        | err e =>
            cases e with
            | none => exact total_ret fun s hs => ⟨⟨hs.1, hs.2.1⟩, hs.2.2⟩
            | some e => exact total_ret fun s hs => ⟨hs.1, trivial, hs.2.1.2⟩
        | done e => exact total_ret fun s hs => ⟨hs.1, trivial, hs.2.1.2⟩
  · exact fun r => total_ret fun _ hs => hs

/-! ## The data -/

theorem DataSelected.visited_eq {err : Bool} {r : DataEvent} (hs : DataSelected err l r l') :
    l'.visited = l.visited := by
  cases hs <;> rfl

theorem ErrReceived.visited_eq {e : Option Err} (hs : ErrReceived l e l') :
    l'.visited = l.visited := by
  cases hs <;> rfl

theorem ErrPolled.visited_eq {err : Bool} {e : Option Err} (hs : ErrPolled err l e l') :
    l'.visited = l.visited := by
  cases hs with
  | err _ hs => exact hs.visited_eq
  | empty _ => rfl

theorem readTarHeader_total :
    RecvTotal i fn goal.isNone (Beside P (Idle (Headed d goal h))) readTarHeader
      fun r => Beside P (Idle (Read (fun data => Reading d goal h data true) True r)) := by
  unfold readTarHeader
  simp only [Prog.bind_eq, Prog.pure_eq]
  refine total_bind (total_host (.selectData true)
    (M := fun r => Idle (DataEvent.Leads (fun data => Reading d goal h data true)
      (fun l => goal = none ∧ Closed none [] true l) (Reading d goal h [] true)
      (Reading d goal h [] true) (goal = none) r))
    (idle_stable (headed_stable h)) (fun l hl => hl.1.2.2.live) ?_) ?_
  · rintro l r l' ⟨hl, hidle⟩ hs
    exact ⟨hl.select hs, (DataSelected.visited_eq hs).trans hidle⟩
  · intro r
    cases r with
    | data data => exact total_ret fun s hs => hs
    | dataClosed =>
        -- the error is on its channel by now
        refine total_bind (total_pre (total_host .recvErr (P := P)
          (K := Idle fun l => goal = none ∧ Closed goal [] true l)
          (M := fun _ => Idle fun _ => True)
          (idle_stable ((Stable.const _).and (closed_stable [] true))) ?_ ?_) ?_) fun e => ?_
        · rintro l ⟨⟨rfl, hclosed⟩, _⟩
          obtain ⟨_, e, heq⟩ := hclosed.err_eq
          obtain ⟨ch, hch⟩ := Chan.exists_recv heq
          exact .inl ⟨_, _, ErrReceived.err hch⟩
        · rintro l r l' ⟨_, hidle⟩ hs
          exact ⟨trivial, (ErrReceived.visited_eq hs).trans hidle⟩
        · rintro s ⟨hw, ⟨hnone, hclosed⟩, hidle⟩
          exact ⟨hw, ⟨hnone, hnone ▸ hclosed⟩, hidle⟩
        · cases e with
          | none | some e => exact total_ret fun s hs => hs
    | errClosed => exact total_ret fun s hs => hs
    | err e =>
        cases e with
        | none => exact total_ret fun s hs => hs
        | some e => exact total_ret fun s hs => ⟨hs.1, trivial, hs.2.2⟩
    | done e => exact total_ret fun s hs => ⟨hs.1, trivial, hs.2.2⟩

/-- What is left to come after an answer of the data `select`. -/
def DataEvent.Lowers (err : Bool) (n : Nat) : DataEvent → TarLink → Prop
  | .data _, l | .err _, l => err.toNat + l.rank < n
  | .errClosed, l => 0 + l.rank < n
  | .dataClosed, _ | .done _, _ => True

theorem rank_sendData {data : Bytes} {complete : Bool} (hp : l.producer = .sendData data complete) :
    ({ l with producer := .afterSend complete } : TarLink).rank < l.rank := by
  have hafter := TarPoint.afterSend_rank complete
  have hrank : l.producer.rank = 12 := by rw [hp, TarPoint.rank]
  simp only [TarLink.rank, hrank]
  omega

theorem DataSelected.lowers {err : Bool} {r : DataEvent} (hs : DataSelected err l r l')
    (hn : err.toNat + l.rank ≤ n) : r.Lowers err n l' := by
  cases hs with
  | dataClosed _ | done _ => trivial
  | data hp =>
      have := rank_sendData hp
      simp only [DataEvent.Lowers]
      omega
  | errClosed hopen _ _ =>
      subst hopen
      simp only [DataEvent.Lowers, Bool.toNat_true] at hn ⊢
      omega
  | err _ hch =>
      have := rank_recvErr hch
      simp only [DataEvent.Lowers]
      omega

/-- What holds between two rounds of `readTarBody`. -/
def Collecting (d : Bytes) (goal : Option Bytes) (h : TarStreamHeader) (err : Bool) :
    TarLink → Prop :=
  Idle fun l => ∃ data, Reading d goal h data err l

theorem collecting_stable (err : Bool) :
    Stable (Onward goal.isNone) (Collecting d goal h err) :=
  idle_stable (Stable.exists fun data => reading_stable h data err)

/-- One `select` of the loop. -/
theorem selectData_total (err : Bool) (n : Nat) :
    RecvTotal i fn goal.isNone
      (fun s => Beside World.Unlocked (Collecting d goal h err) s ∧ err.toNat + s.2.rank ≤ n)
      (Recv.selectData err) fun r => Beside World.Unlocked fun l => (∃ data, Idle
        (DataEvent.Leads (fun more => Reading d goal h (data ++ more) err)
        (Closed goal data err) (Reading d goal h data err) (Reading d goal h data false)
        (goal = none) r) l) ∧ DataEvent.Lowers err n r l := by
  refine total_pre (total_host (.selectData err) (P := World.Unlocked)
    (K := fun l => Collecting d goal h err l ∧ err.toNat + l.rank < n + 1)
    ((collecting_stable err).and (rank_stable _)) ?_ ?_) ?_
  · rintro l ⟨⟨⟨data, hl⟩, _⟩, _⟩
    exact hl.live
  · rintro l r l' ⟨⟨⟨data, hl⟩, hidle⟩, hn⟩ hs
    exact ⟨⟨data, hl.select hs, (DataSelected.visited_eq hs).trans hidle⟩,
      DataSelected.lowers hs (Nat.le_of_lt_succ hn)⟩
  · rintro s ⟨⟨hw, hl⟩, hn⟩
    exact ⟨hw, hl, Nat.lt_succ_of_le hn⟩

theorem readTarBodyLoop_total (fd : Option Fd) :
    RecvTotal i fn goal.isNone (Beside World.Unlocked (Collecting d goal h true))
      (readTarBodyLoop fd) fun _ => Beside World.Unlocked (Idle fun _ => True) := by
  unfold readTarBodyLoop Prog.loop
  refine total_iter (b := true) (onward_wellFounded _)
    (I := fun err => Beside World.Unlocked (Collecting d goal h err))
    (fun err s => err.toNat + s.2.rank)
    (M := fun (_ : Except Err Unit) => Beside World.Unlocked (Idle fun _ => True)) ?_ ?_ ?_
  · rintro err s t (⟨hfalse, _⟩ | ⟨hstep, heq⟩) ⟨hw, hl⟩
    · exact hfalse.elim
    · have hrank := hstep.rank_lt
      refine ⟨⟨heq ▸ hw, collecting_stable err _ _ hstep hl⟩, ?_⟩
      omega
  · intro err n
    simp only [Prog.bind_eq, Prog.pure_eq]
    refine total_bind (selectData_total err n) ?_
    · intro r
      cases r with
      | data more =>
          refine total_pre (P := Beside World.Unlocked fun l =>
            Collecting d goal h err l ∧ err.toNat + l.rank < n) ?_ ?_
          · cases fd with
            | none => exact total_ret fun s hs => ⟨⟨hs.1, hs.2.1⟩, hs.2.2⟩
            | some fd =>
                refine total_bind (total_unlocked ((collecting_stable err).and (rank_stable _))
                  (Prog.Ends.perform trivial)) fun r => ?_
                cases r with
                | ok _ => exact total_ret fun s hs => ⟨⟨hs.1, hs.2.1⟩, hs.2.2⟩
                | error e => exact total_ret fun s hs => ⟨hs.1, trivial, hs.2.1.2⟩
          · rintro s ⟨hw, ⟨data, hl, hidle⟩, hn⟩
            exact ⟨hw, ⟨⟨_, hl⟩, hidle⟩, hn⟩
      | dataClosed =>
          refine total_bind (total_host (.pollErr err) (M := fun _ => Idle fun _ => True)
            (K := fun l => (∃ data, Idle (Closed goal data err) l) ∧ True) ?_ ?_ ?_) fun e => ?_
          · exact (Stable.exists fun data => idle_stable (closed_stable data err)).and
              (Stable.const _)
          · exact fun l _ => .inl (ErrPolled.live err l)
          · rintro l e l' ⟨⟨_, _, hidle⟩, _⟩ hs
            exact ⟨trivial, (ErrPolled.visited_eq hs).trans hidle⟩
          · cases e with
            | none | some e => exact total_ret fun s hs => hs
      | errClosed =>
          refine total_ret fun s hs => ?_
          obtain ⟨hw, ⟨data, hl, hidle⟩, hn⟩ := hs
          exact ⟨⟨hw, ⟨data, hl⟩, hidle⟩, hn⟩
      | err e =>
          cases e with
          | none =>
              refine total_ret fun s hs => ?_
              obtain ⟨hw, ⟨data, hl, hidle⟩, hn⟩ := hs
              exact ⟨⟨hw, ⟨data, hl⟩, hidle⟩, hn⟩
          | some e =>
              refine total_ret fun s hs => ?_
              obtain ⟨hw, ⟨_, _, hidle⟩, _⟩ := hs
              exact ⟨hw, trivial, hidle⟩
      | done e =>
          refine total_ret fun s hs => ?_
          obtain ⟨hw, ⟨_, _, hidle⟩, _⟩ := hs
          exact ⟨hw, trivial, hidle⟩
  · exact fun r => total_ret fun _ hs => hs

theorem readTarBody_total (tarPath : Bytes) (cached : Bool) :
    RecvTotal i fn goal.isNone (Beside World.Unlocked (Collecting d goal h true))
      (readTarBody tarPath cached) fun _ => Beside World.Unlocked (Idle fun _ => True) := by
  have hidle : Stable (Onward goal.isNone) (Idle fun _ => True) := idle_stable (Stable.const _)
  unfold readTarBody
  simp only [Prog.bind_eq, Prog.pure_eq]
  split
  · exact readTarBodyLoop_total none
  · refine total_bind (total_unlocked (collecting_stable true) (Prog.Ends.perform trivial))
      fun r => ?_
    cases r with
    | error e => exact total_ret fun s hs => ⟨hs.1, trivial, hs.2.2⟩
    | ok fd =>
        refine total_bind (readTarBodyLoop_total (some fd)) fun r => ?_
        exact total_bind (total_unlocked hidle (Prog.Ends.perform trivial)) fun _ =>
          total_ret fun _ hs => hs

/-! ## The whole call, up to the walk -/

theorem recv_sys_bind {β : Type} (p : Sys α) (f : α → Sys β) :
    Recv.sys (p.bind f) = (Recv.sys p).bind fun a => Recv.sys (f a) :=
  Prog.inl_bind HostSig p f

theorem publishTar_total (x : Extern) (tarFile cacheDir cacheBase : Bytes)
    (hK : Stable (Onward mayEnd) K) :
    RecvTotal i fn mayEnd (Beside World.Unlocked K)
      (Recv.sys (publishTar x tarFile cacheDir cacheBase)) fun _ => Beside (fun _ => True) K := by
  unfold publishTar
  simp only [Prog.bind_eq, recv_sys_bind]
  refine total_bind (total_unlocked hK (Prog.Ends.perform trivial)) fun r => ?_
  have hret : ∀ r : Except Err Unit, RecvTotal i fn mayEnd (Beside World.Unlocked K)
      (Recv.sys (Prog.ret r)) fun _ => Beside (fun _ => True) K :=
    fun r => total_ret fun s hs => ⟨trivial, hs.2⟩
  have hlocked : RecvTotal i fn mayEnd (Beside World.Unlocked K)
      (Recv.sys (publishUnderLock x tarFile cacheDir cacheBase (cacheDir ++ lockSuffix)))
      fun _ => Beside (fun _ => True) K := by
    unfold publishUnderLock
    rw [recv_sys_bind]
    refine total_bind (Q := fun _ => Beside (fun _ => True) K) ?_ fun r => ?_
    · exact total_op (.tryLock _ _) hK (fun w hw => exec_tryLock_unlocked .calm i _ _ hw)
        fun _ _ _ _ _ => trivial
    · refine total_any hK ?_
      cases r with
      | error e => exact .ret _
      | ok lock =>
          refine Prog.Ends.bind (publishLocked_neverWaits _ _ _ _) fun r => ?_
          exact Prog.Ends.bind (Prog.Ends.perform trivial) fun _ => .ret _
  cases r with
  | ok info =>
      dsimp only
      split
      · exact hret _
      · exact hlocked
  | error e =>
      cases e with
      | noent => exact hlocked
      | _ => exact hret _

theorem downloadContext_total (x : Extern) (cacheBase cacheDir checksum tarHeader : Bytes) :
    RecvTotal i fn goal.isNone (Beside World.Unlocked (Collecting d goal h true))
      (downloadContext x cacheBase cacheDir checksum tarHeader)
      fun _ => Beside (fun _ => True) (Idle fun _ => True) := by
  have hidle : Stable (Onward goal.isNone) (Idle fun _ => True) := idle_stable (Stable.const _)
  have hremove : ∀ (path : Bytes) (e : Err), RecvTotal i fn goal.isNone
      (Beside (fun _ => True) (Idle fun _ => True))
      ((Recv.sys (Sys.remove path)).bind fun _ => Prog.ret (.error e : Except Err Bytes))
      fun _ => Beside (fun _ => True) (Idle fun _ => True) := fun path e =>
    total_bind (total_any hidle (Prog.Ends.perform trivial)) fun _ => total_ret fun _ hs => hs
  unfold downloadContext
  simp only [Prog.bind_eq, Prog.pure_eq]
  refine total_bind (total_unlocked (collecting_stable true) (writeTar_neverWaits _ _)) fun r => ?_
  cases r with
  | error e => exact total_ret fun s hs => ⟨trivial, trivial, hs.2.2⟩
  | ok tarFile =>
      refine total_bind (readTarBody_total tarFile false) fun r => ?_
      cases r with
      | error e => exact total_pre (hremove tarFile e) fun s hs => ⟨trivial, hs.2⟩
      | ok _ =>
          refine total_bind (total_unlocked hidle (verifyTarHash_neverWaits _ _ _)) fun r => ?_
          cases r with
          | error e => exact total_pre (hremove tarFile e) fun s hs => ⟨trivial, hs.2⟩
          | ok _ =>
              refine total_bind (publishTar_total x tarFile cacheDir cacheBase hidle) fun r => ?_
              cases r with
              | error e => exact hremove tarFile e
              | ok _ => exact total_ret fun _ hs => hs

theorem fetchWith_total (x : Extern) (cacheBase : Bytes) :
    RecvTotal i fn goal.isNone (Beside World.Unlocked (Idle (Headed d goal h)))
      (fetchWith x cacheBase h) fun _ => Beside (fun _ => True) (Idle fun _ => True) := by
  have hheaded : Stable (Onward goal.isNone) (Idle (Headed d goal h)) :=
    idle_stable (headed_stable h)
  have hret : ∀ r : Except Err (Bytes × Option Bytes), RecvTotal i fn goal.isNone
      (Beside World.Unlocked (Idle (Headed d goal h))) (Prog.ret r)
      fun _ => Beside (fun _ => True) (Idle fun _ => True) :=
    fun r => total_ret fun s hs => ⟨trivial, trivial, hs.2.2⟩
  have hcollect : ∀ (data : Bytes) (s : World × TarLink),
      Beside World.Unlocked
        (Idle (Read (fun data => Reading d goal h data true) True (.ok data))) s →
      Beside World.Unlocked (Collecting d goal h true) s :=
    fun data s hs => ⟨hs.1, ⟨data, hs.2.1⟩, hs.2.2⟩
  unfold fetchWith
  simp only [Prog.bind_eq, Prog.pure_eq]
  split
  · exact hret _
  · refine total_bind (total_unlocked hheaded (mkdirAllFrom_ends _ _ _).neverWaits) fun r => ?_
    cases r with
    | error e => exact hret _
    | ok _ =>
        have hpresent : NeverWaits (cachedContextPresent cacheBase h.checksum) := by
          unfold cachedContextPresent
          split
          · exact .ret _
          · exact checkCache_neverWaits _
        refine total_bind (total_unlocked hheaded hpresent) fun r => ?_
        cases r with
        | error e => exact hret _
        | ok cached =>
            dsimp only
            split
            · split
              · exact hret _
              · exact hret _
            · refine total_bind readTarHeader_total fun r => ?_
              cases r with
              | error e => exact total_ret fun s hs => ⟨trivial, hs.2⟩
              | ok data =>
                  refine total_pre ?_ (hcollect data)
                  dsimp only
                  split
                  · refine total_bind (readTarBody_total [] true) fun r => ?_
                    cases r with
                    | error e | ok _ => exact total_ret fun s hs => ⟨trivial, hs.2⟩
                  · refine total_bind (downloadContext_total _ _ _ _ _) fun r => ?_
                    cases r with
                    | error e | ok _ => exact total_ret fun s hs => hs

theorem fetchContext_total (x : Extern) (cacheBase : Bytes) :
    RecvTotal i fn goal.isNone (Beside World.Unlocked (Idle (Waiting d goal true true)))
      (fetchContext x cacheBase) fun _ => Beside (fun _ => True) (Idle fun _ => True) := by
  unfold fetchContext
  simp only [Prog.bind_eq, Prog.pure_eq]
  refine total_bind readTarStreamHeader_total fun r => ?_
  cases r with
  | error e => exact total_ret fun s hs => ⟨trivial, hs.2⟩
  | ok header => exact fetchWith_total x cacheBase

end

end BuilderShim.Fileutils
