/-
  Fileutils/CacheSafety.lean --- the cache under any number of calls.

  Calls of `Receive` and `LookupContext` run side by side, over streams that may
  say anything, on a machine that may fail any operation, and may be killed
  between any two operations.  A complete entry is what its digest says, and once
  an entry is complete it stays.  A `Receive` that fails alone leaves the cache as
  it was.
-/
import BuilderShim.Foundation.Pool
import BuilderShim.Posix.Concrete
import BuilderShim.Fileutils.ReceiveSpec

set_option autoImplicit false

namespace BuilderShim.Fileutils

open BuilderShim.Filepath
open BuilderShim.Foundation
open BuilderShim.Posix

/-! ## The calls -/

/-- The gRPC codes `LookupContext` answers with (pkg/server/server.go). -/
inductive StatusCode where
  | invalidArgument
  | internal
  deriving DecidableEq, Repr

def lookupContext (cacheBase digest : Bytes) : Sys (Except (StatusCode × Err) Bool) := do
  match ← cachedContextPresent cacheBase digest with
  | .error .invalidContextDigest => return .error (.invalidArgument, .invalidContextDigest)
  | .error e => return .error (.internal, e)
  | .ok present => return .ok present

inductive Call where
  | receive
  | lookup (digest : Bytes)

/-- What a call returns. -/
inductive Reply where
  | received (digest : Except Err Bytes) (walked : Option Err)
  | present (r : Except (StatusCode × Err) Bool)

def Reply.ofReceive (r : Except Err Bytes × Option Err) : Reply := .received r.1 r.2

def Call.prog (x : Extern) (cacheBase : Bytes) : Call → Recv Reply
  | .receive => do return .ofReceive (← Fileutils.receive x cacheBase)
  | .lookup digest => do return .present (← Recv.sys (lookupContext cacheBase digest))

/-- `Receive` once it has its header. -/
def receiveWith (x : Extern) (cacheBase : Bytes) (header : TarStreamHeader) :
    Recv (Except Err Bytes × Option Err) := do
  walkFetched cacheBase (← fetchWith x cacheBase header)

def Call.headed (x : Extern) (cacheBase : Bytes) (header : TarStreamHeader) : Recv Reply := do
  return .ofReceive (← receiveWith x cacheBase header)

/-- A stream that may say anything at any time. -/
def anyHost : Host World Unit where
  world := id
  link _ := ()
  exec _ _ _ _ := True
  env _ _ := False

def anyFeed : Feed anyHost where
  wait _ _ _ := True
  first _ _ := True
  more _ _ _ _ := True
  last _ _ _ _ := True
  sent _ := True
  whole _ _ := True
  fails := True
  wait_stable _ _ := Stable.const True
  first_stable _ := Stable.const True
  more_stable _ _ _ := Stable.const True
  last_stable _ _ _ := Stable.const True
  wait_end _ _ := trivial
  wait_select h e l r l' _ _ := by
    cases r with
    | err err => cases err <;> trivial
    | header hd => trivial
    | headerClosed => trivial
    | errClosed => trivial
    | done err => trivial
  first_sent _ _ _ := trivial
  first_select h l r l' _ _ := by
    cases r with
    | err err => cases err <;> trivial
    | data d => trivial
    | dataClosed => trivial
    | errClosed => trivial
    | done err => trivial
  more_select h A e l r l' _ _ := by
    cases r with
    | err err => cases err <;> trivial
    | data d => trivial
    | dataClosed => trivial
    | errClosed => trivial
    | done err => trivial
  last_poll _ _ _ _ _ _ := ⟨fun _ => trivial, fun _ _ => trivial⟩

/-- The operations of the call `i`, over any stream. -/
def callExec (m : Mode) (i : Nat) : Exec RecvSig World :=
  Exec.join anyHost.world anyHost.link (exec m i) anyHost.exec

/-- The call `i` is killed. -/
def Dies (i : Nat) (w w' : World) : Prop := w' = w.releaseLocks i

/-- The pool before any of the calls has started. -/
def startPool (x : Extern) (cacheBase : Bytes) (calls : Nat → Call) (w : World) :
    Pool RecvSig World Nat Reply :=
  ⟨fun i => some ((calls i).prog x cacheBase), w⟩

/-- One pool is reached from another, the call `i` on a machine of mode `m i`. -/
def CacheRun (m : Nat → Mode) :
    Pool RecvSig World Nat Reply → Pool RecvSig World Nat Reply → Prop :=
  PoolRun (fun i => callExec (m i) i) Dies

/-- `Receive` while it waits for its header on these channels. -/
def receiveWaiting (x : Extern) (cacheBase : Bytes) (channels : Bool × Bool) :
    Recv (Except Err Bytes × Option Err) :=
  ((readTarStreamHeaderLoop channels).bind fun r => match r with
    | .error e => pure (.error e)
    | .ok header => fetchWith x cacheBase header).bind (walkFetched cacheBase)

theorem receive_waiting (x : Extern) (cacheBase : Bytes) :
    receive x cacheBase = receiveWaiting x cacheBase (true, true) := rfl

/-- The receiver, once the header has come. -/
theorem receiveWaiting_header (m : Mode) (i : Nat) (x : Extern) (cacheBase : Bytes)
    {headerCh errCh : Bool} (hopen : ¬ (headerCh = false ∧ errCh = false))
    (header : TarStreamHeader) (w : World) :
    ∃ p, Step (callExec m i) (receiveWaiting x cacheBase (headerCh, errCh)) w p w ∧
      Step (callExec m i) p w (receiveWith x cacheBase header) w := by
  have hstep : ∀ k : HeaderEvent → Recv (Except Err Bytes × Option Err),
      Step (callExec m i) (.call (.inr (.selectHeader headerCh errCh)) k) w
        (k (.header header)) w :=
    fun k => .call ⟨trivial, rfl⟩
  refine ⟨_, .iter, ?_⟩
  simp only [hopen, if_false]
  exact hstep _

/-- The same for the calls of a pool. -/
theorem waiting_headed {m : Mode} {i : Nat} {x : Extern} {cacheBase : Bytes}
    {headerCh errCh : Bool} (hopen : ¬ (headerCh = false ∧ errCh = false))
    (header : TarStreamHeader) (w : World) :
    ∃ p, Step (callExec m i) ((receiveWaiting x cacheBase (headerCh, errCh)).bind
        fun r => pure (.ofReceive r)) w p w ∧
      Step (callExec m i) p w (Call.headed x cacheBase header) w := by
  obtain ⟨p, hiter, hcall⟩ := receiveWaiting_header m i x cacheBase hopen header w
  exact ⟨_, hiter.bind _, hcall.bind _⟩

namespace CacheSite

variable {c : CacheSite} {x : Extern} {i : Nat} {R : World → World → Prop} {J : World → Prop}
variable {S : Set Bytes} {w w' w₀ : World} {d t : Bytes} {m : Mode}

theorem tidy_releaseLocks (c : CacheSite) (i : Nat) (w : World) :
    c.Tidy i w (w.releaseLocks i) := by
  refine tidy_local [] (fun _ _ => rfl) rfl rfl (.same fun _ => rfl) (fun _ _ h => absurd rfl h)
    (fun _ _ h _ => .inl h) (Nat.le_refl _) fun q => ?_
  unfold World.releaseLocks
  by_cases hq : w.locks q = some i
  · exact .inr (.inr ⟨hq, if_pos hq⟩)
  · exact .inl (if_neg hq)

/-- The first check of a call among others. -/
theorem Setting.checked_open (g : c.Setting x i R J) (d : Bytes) (hd : IsDigest d) :
    Triple (exec m i) R (c.Allowed x i) (c.Settled i J S) (checkCache (c.site.path [d]))
      (c.Checked (fun _ => True) i J S d) := by
  refine triple_post (g.checkCache_open hd (g.settled S) fun w hw => hw.rooted) fun r w h => ?_
  cases r with
  | error e => exact ⟨trivial, h⟩
  | ok cached =>
      cases cached with
      | true => exact ⟨h.1.1, h.2⟩
      | false => exact h

/-- What is known of a call among others: nothing but what the others may do. -/
theorem among (c : CacheSite) (x : Extern) (i : Nat) :
    c.Setting x i (Others (c.Allowed x) i) fun _ => True where
  rely _ _ h := h
  env _ _ _ _ _ := trivial
  own _ _ _ _ _ := trivial

/-- A triple over any stream says what a call of the pool does. -/
theorem safe_of_recv {P : World → Prop} {p : Recv Reply} {Q : Reply → World → Prop}
    (h : c.RecvTriple m x i (Others (c.Allowed x) i) anyHost P p Q) (hw : P w) :
    Safe (callExec m i) (Others (c.Allowed x) i) (c.Allowed x i) p Q w :=
  (h w hw).weaken (fun _ _ hR => .inl ⟨hR, rfl⟩) fun _ _ hG => hG

/-- Nothing is known of a call that may have left anything. -/
theorem stage_any (hr : c.Rooted w) : c.Stage i (fun _ => True) Set.univ w :=
  ⟨hr, trivial, fun _ _ => trivial⟩

/-! ## Safety of the pool -/

/-- What is known when a call has returned. -/
def Replied (c : CacheSite) (call : Call) (r : Reply) (w : World) : Prop :=
  match call, r with
  | .lookup d, .present (.ok true) => IsDigest d ∧ c.Rooted w ∧ c.Complete w d
  | _, _ => True

theorem Setting.lookupContext_open (g : c.Setting x i R J) (d : Bytes) :
    Triple (exec m i) R (c.Allowed x i) (c.Stage i J S) (lookupContext c.base d) fun r w =>
      r = .ok true → IsDigest d ∧ c.Rooted w ∧ c.Complete w d := by
  have hroot : ∀ w, c.Stage i J S w → c.Rooted w := fun w hw => hw.rooted
  have hother : ∀ r : Except (StatusCode × Err) Bool, r ≠ .ok true →
      Triple (exec m i) R (c.Allowed x i) (c.Stage i J S) (Prog.ret r) fun r w =>
        r = .ok true → IsDigest d ∧ c.Rooted w ∧ c.Complete w d :=
    fun r hr => triple_ret (g.stage S) fun w _ h => absurd h hr
  unfold lookupContext
  simp only [Prog.bind_eq, Prog.pure_eq]
  unfold cachedContextPresent
  cases hv : validateContextDigest d with
  | error e =>
      simp only [Prog.pure_eq, Prog.ret_bind]
      split
      · exact hother _ (by simp)
      · exact hother _ (by simp)
      · rename_i heq
        cases heq
  | ok _ =>
      have hd : IsDigest d := hv
      simp only [join_base c hd.name]
      refine triple_bind (g.checkCache_open hd (g.stage S) hroot) fun r => ?_
      cases r with
      | error e =>
          simp only
          split
          · exact hother _ (by simp)
          · exact hother _ (by simp)
          · rename_i heq
            cases heq
      | ok cached =>
          cases cached with
          | false => exact hother _ (by simp)
          | true =>
              refine triple_ret (g.ready_complete hd (g.stage S) hroot) fun w h _ => ?_
              exact ⟨hd, h.1.1.rooted, h.2⟩

theorem Setting.prog_spec (g : c.Setting x i R J) (call : Call) :
    c.RecvTriple m x i R anyHost (c.Stage i J S) (call.prog x c.base) (c.Replied call) := by
  cases call with
  | receive =>
      have hspec := g.receive_spec (m := m) (S := S) anyFeed g.checked_open
      refine triple_pre (triple_bind hspec fun r => ?_) fun w hw => ⟨hw, trivial⟩
      exact triple_pre (triple_ret (Stable.const True) fun _ _ => trivial) fun _ _ => trivial
  | lookup d =>
      refine triple_bind (recv_world (g.lookupContext_open d)) fun r => ?_
      refine triple_ret (P := fun w => r = .ok true → IsDigest d ∧ c.Rooted w ∧ c.Complete w d)
        ?_ fun w h => ?_
      · rintro w w' (⟨hR, _⟩ | ⟨hR, _⟩) h hr
        · obtain ⟨hd, hroot, hc⟩ := h hr
          obtain ⟨j, _, hstep⟩ := g.rely _ _ hR
          exact ⟨hd, hstep.framed.rooted hroot, (hstep.complete hroot hd hc).1⟩
        · exact hR.elim
      · unfold Replied
        cases r with
        | error e => trivial
        | ok present =>
            cases present with
            | false => trivial
            | true => exact h rfl

/-- Every call of the pool keeps to the protocol, whatever it receives and whatever
fails. -/
theorem startPool_safe (hr : c.Rooted w₀) (m : Nat → Mode) (calls : Nat → Call) :
    AllSafe (fun i => callExec (m i) i) (c.Allowed x) (fun i => c.Replied (calls i))
      (startPool x c.base calls w₀) := by
  intro i p hi
  cases hi
  exact safe_of_recv ((c.among x i).prog_spec (calls i)) (stage_any hr)

theorem dies_allowed (i : Nat) (w w' : World) (h : Dies i w w') : c.Allowed x i w w' := by
  rw [h]
  exact .inl (c.tidy_releaseLocks i w)

/-- What holds of the cache in every state of every run. -/
theorem cacheRun_invariant (hr : c.Rooted w₀) (hs : c.Sound x w₀) {m : Nat → Mode}
    {calls : Nat → Call} {q : Pool RecvSig World Nat Reply}
    (hrun : CacheRun m (startPool x c.base calls w₀) q) :
    c.Rooted q.state ∧ c.Sound x q.state := by
  refine (startPool_safe hr m calls).invariant dies_allowed
    (I := fun w => c.Rooted w ∧ c.Sound x w) (fun i w w' hG hI => ?_) hrun ⟨hr, hs⟩
  exact ⟨hG.framed.rooted hI.1, hG.sound hI.1 hI.2⟩

/-- `CachedContextPresent` answers true in this state, or a call of it has done so. -/
def Present (c : CacheSite) (calls : Nat → Call) (q : Pool RecvSig World Nat Reply) (d : Bytes) :
    Prop :=
  c.answer q.state d = some (.ok true) ∨
    ∃ i, calls i = .lookup d ∧ q.threads i = some (.ret (.present (.ok true)))

theorem answer_true_isDigest (h : c.answer w d = some (.ok true)) : IsDigest d := by
  unfold answer cachedContextPresent at h
  cases hv : validateContextDigest d with
  | error e =>
      rw [hv] at h
      cases h
  | ok _ => exact hv

theorem Present.complete (hr : c.Rooted w₀) {m : Nat → Mode} {calls : Nat → Call}
    {q : Pool RecvSig World Nat Reply} (hrun : CacheRun m (startPool x c.base calls w₀) q)
    (h : c.Present calls q d) : IsDigest d ∧ c.Rooted q.state ∧ c.Complete q.state d := by
  have hsafe := (startPool_safe (x := x) hr m calls).run dies_allowed hrun
  have hroot : c.Rooted q.state :=
    (startPool_safe (x := x) hr m calls).invariant dies_allowed
      (fun i w w' hG hI => hG.framed.rooted hI) hrun hr
  rcases h with h | ⟨i, hcall, hret⟩
  · have hd := answer_true_isDigest h
    exact ⟨hd, hroot, (answer_true_iff hroot hd).mp h⟩
  · have hreply : c.Replied (calls i) (.present (.ok true)) q.state := (hsafe i _ hret).ret
    rw [hcall] at hreply
    exact hreply

/-- An entry reported as present holds the tree of an archive with its digest, the
completion marker, and nothing else. -/
theorem present_published (hr : c.Rooted w₀) (hs : c.Sound x w₀) {m : Nat → Mode}
    {calls : Nat → Call} {q : Pool RecvSig World Nat Reply}
    (hrun : CacheRun m (startPool x c.base calls w₀) q) (hp : c.Present calls q d) :
    ∃ archive tree, hexEncode (x.sha256 archive) = d ∧
      extract c.umask (emptyTree (maskPerm c.umask 0o700)) (x.untar archive) = some tree ∧
      ∀ rel, q.state.fs.view (c.child d) rel = tree.insert [cacheCompletionMarker]
        (.file (maskPerm c.umask 0o600) cacheCompletionValue) rel := by
  obtain ⟨hd, _, hc⟩ := hp.complete hr hrun
  obtain ⟨_, hsound⟩ := cacheRun_invariant hr hs hrun
  obtain ⟨T, ⟨archive, tree, hhash, htree, rfl⟩, hview⟩ := hsound d hd hc
  exact ⟨archive, tree, hhash, htree, hview⟩

/-! ## Entries stay -/

theorem Complete.ready (h : c.Complete w d) : c.Ready w :=
  FS.isDir_of_below (q := [d]) (FS.node_ne_none_of_isDir h.isDir) (by simp)

/-- What a call knows that starts when the entry is complete. -/
theorem settled_kept (hr : c.Rooted w) (hc : c.Complete w d) :
    c.Settled i (c.Kept d (w.fs.view (c.child d))) Set.univ w :=
  ⟨⟨hr, ⟨hc, fun _ => rfl⟩, fun _ _ => trivial⟩, hc.ready⟩

section Kept

variable {T : TreeMap}

theorem Setting.checkCache_kept (g : c.Setting x i R (c.Kept d T)) (hd : IsDigest d) :
    Triple (exec m i) R (c.Allowed x i) (c.Settled i (c.Kept d T) S)
      (checkCache (c.site.path [d])) fun r w =>
        c.Answers m d (.ok true) r ∧ c.Settled i (c.Kept d T) S w :=
  triple_conseq (g.checkCache_complete hd) (fun _ hw => ⟨hw, hw.inv.1⟩) fun _ _ h => ⟨h.1, h.2.1⟩

theorem Setting.lookupContext_kept (g : c.Setting x i R (c.Kept d T)) (hd : IsDigest d)
    (hm : ¬ c.CheckFails m d) :
    Triple (exec m i) R (c.Allowed x i) (c.Settled i (c.Kept d T) S) (lookupContext c.base d)
      fun r _ => r = .ok true := by
  have hv : validateContextDigest d = .ok () := hd
  unfold lookupContext cachedContextPresent
  simp only [hv, join_base c hd.name, Prog.bind_eq, Prog.pure_eq]
  refine triple_bind (g.checkCache_kept hd) fun r => triple_pure fun hr => ?_
  rcases hr with rfl | ⟨hf, _⟩
  · exact triple_ret (g.settled S) fun _ _ => rfl
  · exact absurd hf hm

/-- After `MkdirAll` of the base, with an entry that is kept. -/
def BaseKept (c : CacheSite) (m : Mode) (i : Nat) (d : Bytes) (T : TreeMap) (S : Set Bytes)
    (r : Except Errno Unit) (w : World) : Prop :=
  match r with
  | .ok () => c.Settled i (c.Kept d T) S w
  | .error _ => m.fails (.stat c.base)

/-- A header marked complete is answered from the cache. -/
theorem Setting.fetchWith_kept {υ L : Type} {η : Host υ L} (g : c.Setting x i R (c.Kept d T))
    (hd : IsDigest d) (hm : ¬ c.CheckFails m d) :
    c.RecvTriple m x i R η (fun s => c.Settled i (c.Kept d T) S (η.world s))
      (fetchWith x c.base ⟨d, true⟩) fun r _ =>
        r = .ok (d, none) ∨ (m.fails (.stat c.base) ∧ ∃ e, r = .error (.sys e)) := by
  have hv : validateContextDigest d = .ok () := hd
  unfold fetchWith
  simp only [hv, join_base c hd.name, cachedContextPresent, Prog.bind_eq, Prog.pure_eq, if_true]
  -- the directory is there, so `MkdirAll` only looks
  have hmkdir : Triple (exec m i) R (c.Allowed x i) (c.Settled i (c.Kept d T) S)
      (Os.mkdirAll c.base 0o755) (c.BaseKept m i d T S) := by
    by_cases hf : m.fails (.stat c.base)
    · refine triple_conseq (g.mkdirAll_base 0o755) (fun _ hw => hw.toStage) fun r w h => ?_
      cases r with
      | ok _ => exact h
      | error e => exact hf
    · refine triple_post (g.mkdirAll_ready hf 0o755) fun r w h => ?_
      obtain ⟨rfl, hw⟩ := h
      exact hw
  refine triple_bind (recv_world hmkdir) fun r => ?_
  cases r with
  | error e => exact triple_ret (Stable.const _) fun _ hf => .inr ⟨hf, e, rfl⟩
  | ok _ =>
      refine triple_bind (recv_world (g.checkCache_kept hd)) fun r => triple_pure fun hr => ?_
      rcases hr with rfl | ⟨hf, _⟩
      · exact triple_ret (g.settled S).part fun _ _ => .inl rfl
      · exact absurd hf hm

theorem Setting.headed_kept {υ L : Type} {η : Host υ L} (g : c.Setting x i R (c.Kept d T))
    (hd : IsDigest d) (hm : ¬ c.CheckFails m d) :
    c.RecvTriple m x i R η (fun s => c.Settled i (c.Kept d T) S (η.world s))
      (Call.headed x c.base ⟨d, true⟩) fun reply _ => ∀ r walked, reply = .received r walked →
        r = .ok d ∨ (m.fails (.stat c.base) ∧ ∃ e, r = .error (.sys e)) := by
  refine triple_bind (M := fun r _ => r.1 = .ok d ∨ (m.fails (.stat c.base) ∧
    ∃ e, r.1 = .error (.sys e))) (triple_bind (g.fetchWith_kept hd hm) fun r => ?_) fun r => ?_
  · refine triple_pre (P := fun _ => (r = .ok (d, none) ∨ (m.fails (.stat c.base) ∧
      ∃ e, r = .error (.sys e))) ∧ True) (triple_pure fun hr => ?_) fun _ h => ⟨h, trivial⟩
    rcases hr with rfl | ⟨hf, e, rfl⟩
    · unfold walkFetched
      refine triple_bind (walkCachedContext_keeps (P := fun _ => True) (Stable.const _) _)
        fun walked => ?_
      exact triple_ret (Stable.const _) fun _ _ => .inl rfl
    · exact triple_ret (Stable.const _) fun _ _ => .inr ⟨hf, e, rfl⟩
  · refine triple_ret (Stable.const _) fun s h r' walked heq => ?_
    cases heq
    exact h

end Kept

/-- An entry reported as present is kept by every step of every call. -/
theorem Present.kept (hr : c.Rooted w₀) {m : Nat → Mode} {calls : Nat → Call}
    {q q' : Pool RecvSig World Nat Reply} (hrun : CacheRun m (startPool x c.base calls w₀) q)
    (hp : c.Present calls q d) (hrun' : CacheRun m q q') :
    c.Rooted q'.state ∧ c.Kept d (q.state.fs.view (c.child d)) q'.state := by
  obtain ⟨hd, hroot, hc⟩ := hp.complete hr hrun
  have hsafe := (startPool_safe (x := x) hr m calls).run dies_allowed hrun
  refine hsafe.invariant dies_allowed
    (I := fun w => c.Rooted w ∧ c.Kept d (q.state.fs.view (c.child d)) w) (fun i w w' hG hI => ?_)
    hrun' ⟨hroot, hc, fun _ => rfl⟩
  obtain ⟨hc', hview⟩ := hG.complete hI.1 hd hI.2.1
  exact ⟨hG.framed.rooted hI.1, hc', fun rel => (hview rel).trans (hI.2.2 rel)⟩

/-- An entry once reported as present is reported so ever after, does not change, and
serves every later header marked complete. -/
theorem present_stays (hr : c.Rooted w₀) {m : Nat → Mode} {calls : Nat → Call}
    {q q' : Pool RecvSig World Nat Reply} (hrun : CacheRun m (startPool x c.base calls w₀) q)
    (hp : c.Present calls q d) (hrun' : CacheRun m q q') :
    c.answer q'.state d = some (.ok true) ∧
      (∀ rel, q'.state.fs.view (c.child d) rel = q.state.fs.view (c.child d) rel) ∧
      (∀ i r, q.threads i = some (Call.prog x c.base (.lookup d)) →
        q'.threads i = some (.ret (.present r)) → ¬ c.CheckFails (m i) d → r = .ok true) ∧
      ∀ i r walked, q.threads i = some (Call.headed x c.base ⟨d, true⟩) →
        q'.threads i = some (.ret (.received r walked)) → ¬ c.CheckFails (m i) d →
        r = .ok d ∨ ((m i).fails (.stat c.base) ∧ ∃ e, r = .error (.sys e)) := by
  obtain ⟨hd, hroot, hc⟩ := hp.complete hr hrun
  have hsafe := (startPool_safe (x := x) hr m calls).run dies_allowed hrun
  obtain ⟨hroot', hc', hview'⟩ := hp.kept hr hrun hrun'
  -- a call that starts now is followed to its end
  have hfollow : ∀ {i p} {Q : Reply → World → Prop} {a},
      c.RecvTriple (m i) x i (Others (c.Allowed x) i) anyHost
        (c.Settled i (c.Kept d (q.state.fs.view (c.child d))) Set.univ) p Q →
      q.threads i = some p → q'.threads i = some (.ret a) → Q a q'.state := by
    intro i p Q a hspec hi ha
    have hsafe' := hsafe.update Q (i := i) fun p' hp' => by
      rw [hi] at hp'
      cases hp'
      exact safe_of_recv hspec (settled_kept hroot hc)
    have hret := ((hsafe'.run dies_allowed hrun') i _ ha).ret
    rw [Function.update_self] at hret
    exact hret
  refine ⟨(answer_true_iff hroot' hd).mpr hc', hview', ?_, ?_⟩
  · intro i r hi ha hm
    have hspec : c.RecvTriple (m i) x i (Others (c.Allowed x) i) anyHost
        (c.Settled i (c.Kept d (q.state.fs.view (c.child d))) Set.univ)
        (Call.prog x c.base (.lookup d)) fun reply _ => reply = .present (.ok true) := by
      refine triple_bind (recv_world (((c.among x i).stays hd _).lookupContext_kept hd hm))
        fun r => ?_
      refine triple_ret (Stable.const _) fun _ h => ?_
      rw [h]
    have hreply := hfollow hspec hi ha
    cases hreply
    rfl
  · intro i r walked hi ha hm
    exact hfollow (((c.among x i).stays hd _).headed_kept hd hm) hi ha r walked rfl

/-! ## A call that fails alone -/

/-- The cache is as it was in `w₀`, but for temporaries of the call `i`. -/
structure Untouched (c : CacheSite) (i : Nat) (w₀ w : World) : Prop where
  answers : ∀ d, IsDigest d → c.answer w d = c.answer w₀ d
  entries : ∀ d, IsDigest d → c.Complete w₀ d → c.Kept d (w₀.fs.view (c.child d)) w
  temps : ∀ t, TempName t → w.fs.node (c.child t) = w₀.fs.node (c.child t) ∨
    (w₀.fs.node (c.child t) = none ∧ c.OwnTemp i w t)

theorem Untouched.refl (c : CacheSite) (i : Nat) (w : World) : c.Untouched i w w where
  answers _ _ := rfl
  entries _ _ hc := ⟨hc, fun _ => rfl⟩
  temps _ _ := .inl rfl

/-- A step that publishes nothing touches nothing else. -/
theorem Untouched.tidy (x : Extern) (h : c.Untouched i w₀ w) (hfresh : ∀ t, ¬ c.OwnTemp i w₀ t)
    (hr : c.Rooted w) (ht : c.Tidy i w w') : c.Untouched i w₀ w' where
  answers d hd := (ht.answer hr hd).trans (h.answers d hd)
  entries d hd hc := by
    obtain ⟨hc', hview⟩ := h.entries d hd hc
    obtain ⟨hc'', hview'⟩ := Allowed.complete (x := x) (.inl ht) hr hd hc'
    exact ⟨hc'', fun rel => (hview' rel).trans (hview rel)⟩
  temps t htemp := by
    have hold := h.temps t htemp
    rcases ht.entry t with hsame | ⟨_, hbefore, hafter⟩ | ⟨d', hd', heq, _, _⟩ | ⟨hd', _, _, _⟩
    · rw [hsame.self]
      rcases hold with heq | ⟨hnone, hown⟩
      · exact .inl heq
      · exact .inr ⟨hnone, hown.of_same hsame.self⟩
    · -- what the call may create or remove was not there at the start
      have hnone : w₀.fs.node (c.child t) = none := by
        rcases hold with heq | ⟨hnone, _⟩
        · rcases hbefore with hb | hown
          · rw [← heq]
            exact hb
          · exact absurd (hown.of_same heq.symm) (hfresh t)
        · exact hnone
      rcases hafter with hgone | hown
      · exact .inl (hgone.trans hnone.symm)
      · exact .inr ⟨hnone, hown⟩
    · exact absurd heq (htemp.not_lock hd')
    · exact absurd hd' htemp.not_digest

theorem alone (hfresh : ∀ t, ¬ c.OwnTemp i w₀ t) :
    c.Setting x i (fun _ _ => False) (c.Untouched i w₀) where
  rely _ _ h := h.elim
  env _ _ _ h := h.elim
  own _ _ hr ht h := h.tidy x hfresh hr ht

theorem answer_invalid (hd : ¬ IsDigest d) : c.answer w' d = c.answer w d := by
  unfold answer cachedContextPresent
  cases hv : validateContextDigest d with
  | error e => rfl
  | ok _ => exact absurd hv hd

/-- A `Receive` that returns an error before the walk leaves the cache as it was:
complete entries, the answers for all digests, and the temporaries in it. -/
theorem receive_error_atomic (hr : c.Rooted w₀) (hfresh : ∀ t, ¬ c.OwnTemp i w₀ t) {n : Nat}
    {e : Err} {walked : Option Err}
    (hrun : Run (callExec m i) (fun _ _ => False) n (receive x c.base) w₀
      (.ret (.error e, walked)) w) :
    (∀ d, c.answer w₀ d = some (.ok true) →
        ∀ rel, w.fs.view (c.child d) rel = w₀.fs.view (c.child d) rel) ∧
      (∀ d, c.answer w d = c.answer w₀ d) ∧
      (c.Sweeps m → ∀ t, TempName t → w.fs.node (c.child t) = w₀.fs.node (c.child t)) := by
  have g := alone (x := x) hfresh
  have hspec := g.receive_spec (m := m) (S := ∅) anyFeed g.checked_open
  have hstage : c.Stage i (c.Untouched i w₀) ∅ w₀ :=
    ⟨hr, Untouched.refl c i w₀, fun t ht => absurd ht (hfresh t)⟩
  have hsafe : Safe (callExec m i) (fun _ _ => False) (c.Allowed x i) (receive x c.base)
      (fun r w => c.Received m x i (c.Untouched i w₀) ∅ anyFeed (fun _ => True) r w) w₀ :=
    (hspec w₀ ⟨hstage, trivial⟩).weaken (fun _ _ h => h.elim) fun _ _ hG => hG
  obtain ⟨_, hstage', hswept⟩ := (hsafe.run hrun).ret
  refine ⟨fun d ha => ?_, fun d => ?_, fun hm t ht => ?_⟩
  · have hd := answer_true_isDigest ha
    exact (hstage'.inv.entries d hd ((answer_true_iff hr hd).mp ha)).2
  · by_cases hd : IsDigest d
    · exact hstage'.inv.answers d hd
    · exact answer_invalid hd
  · rcases hstage'.inv.temps t ht with heq | ⟨_, hown⟩
    · exact heq
    · exact ((hswept hm).temps t hown).elim

end CacheSite

end BuilderShim.Fileutils
