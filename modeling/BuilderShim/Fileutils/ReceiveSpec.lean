/-
  Fileutils/ReceiveSpec.lean --- what a call of `Receive` does to the cache.

  The stream a call receives is described by a `Feed`: what is known while the
  receiver waits for the header, has it, collects the data and is done.  Nothing
  else about the channels is used here, so one specification serves a call that
  may receive anything and one whose stream is known.
-/
import BuilderShim.Foundation.Lift
import BuilderShim.Fileutils.Publish
import BuilderShim.Fileutils.Receive

set_option autoImplicit false

namespace BuilderShim.Fileutils

open BuilderShim.Filepath
open BuilderShim.Foundation
open BuilderShim.Posix

/-- What surrounds a call: the part of the state that is the file system, the part that
is its stream, and how the latter answers and moves. -/
structure Host (υ L : Type) where
  world : υ → World
  link : υ → L
  exec : Exec HostSig L
  env : L → L → Prop

/-- Where an answer of the header `select` leads. -/
def HeaderEvent.Leads {L : Type} (first : TarStreamHeader → L → Prop)
    (wait : Bool → Bool → L → Prop) (fails : Prop) (header err : Bool) :
    HeaderEvent → L → Prop
  | .header h => first h
  | .headerClosed => wait false err
  | .errClosed => wait header false
  | .err none => wait header err
  | .err (some _) => fun _ => fails
  | .done _ => fun _ => fails

/-- Where an answer of the data `select` leads. -/
def DataEvent.Leads {L : Type} (more : Bytes → L → Prop) (closed quiet silent : L → Prop)
    (fails : Prop) : DataEvent → L → Prop
  | .data d => more d
  | .dataClosed => closed
  | .err none => quiet
  | .errClosed => silent
  | .err (some _) => fun _ => fails
  | .done _ => fun _ => fails

/-- What is known of the stream as the receiver goes through it. -/
structure Feed {υ L : Type} (η : Host υ L) where
  /-- waiting for the header, on the channels that are not nil -/
  wait : Bool → Bool → L → Prop
  /-- the header has come -/
  first : TarStreamHeader → L → Prop
  /-- this much data has come; the flag says whether the error channel is not nil -/
  more : TarStreamHeader → Bytes → Bool → L → Prop
  /-- the data channel is closed -/
  last : TarStreamHeader → Bytes → Bool → L → Prop
  /-- the headers that may come -/
  sent : TarStreamHeader → Prop
  /-- the data that may have come in all -/
  whole : TarStreamHeader → Bytes → Prop
  /-- the stream may fail -/
  fails : Prop
  wait_stable : ∀ h e, Stable η.env (wait h e)
  first_stable : ∀ h, Stable η.env (first h)
  more_stable : ∀ h A e, Stable η.env (more h A e)
  last_stable : ∀ h A e, Stable η.env (last h A e)
  wait_end : ∀ l, wait false false l → fails
  wait_select : ∀ h e l r l', wait h e l → η.exec (.selectHeader h e) l r l' →
    HeaderEvent.Leads first wait fails h e r l'
  first_sent : ∀ h l, first h l → sent h
  first_select : ∀ h l r l', first h l → η.exec (.selectData true) l r l' →
    DataEvent.Leads (fun d => more h d true) (fun _ => fails) (more h [] true) (more h [] true)
      fails r l'
  more_select : ∀ h A e l r l', more h A e l → η.exec (.selectData e) l r l' →
    DataEvent.Leads (fun d => more h (A ++ d) e) (last h A e) (more h A e) (more h A false)
      fails r l'
  last_poll : ∀ h A e l l', last h A e l →
    (η.exec (.pollErr e) l none l' → whole h A) ∧
      ∀ err, η.exec (.pollErr e) l (some err) l' → fails

namespace Feed

variable {υ L : Type} {η : Host υ L}

theorem stable_header (f : Feed η) (h e : Bool) (r : HeaderEvent) :
    Stable η.env (HeaderEvent.Leads f.first f.wait f.fails h e r) := by
  cases r with
  | header hd => exact f.first_stable hd
  | headerClosed => exact f.wait_stable false e
  | errClosed => exact f.wait_stable h false
  | err err =>
      cases err with
      | none => exact f.wait_stable h e
      | some err => exact Stable.const _
  | done err => exact Stable.const _

theorem stable_data (f : Feed η) {more : Bytes → L → Prop} {closed quiet silent : L → Prop}
    (hm : ∀ d, Stable η.env (more d)) (hc : Stable η.env closed) (hq : Stable η.env quiet)
    (hs : Stable η.env silent) (r : DataEvent) :
    Stable η.env (DataEvent.Leads more closed quiet silent f.fails r) := by
  cases r with
  | data d => exact hm d
  | dataClosed => exact hc
  | errClosed => exact hs
  | err err =>
      cases err with
      | none => exact hq
      | some err => exact Stable.const _
  | done err => exact Stable.const _

end Feed

/-- The answer of a reader of the stream: something known, or a failure of the stream. -/
def Read {L α : Type} (ok : α → L → Prop) (fails : Prop) : Except Err α → L → Prop
  | .ok a => ok a
  | .error _ => fun _ => fails

theorem stable_read {L α : Type} {R : L → L → Prop} {ok : α → L → Prop} {fails : Prop}
    (h : ∀ a, Stable R (ok a)) (r : Except Err α) : Stable R (Read ok fails r) := by
  cases r with
  | ok a => exact h a
  | error e => exact Stable.const _

namespace CacheSite

/-- A triple of the call `i`, on the file system and its stream. -/
abbrev RecvTriple {υ L α : Type} (c : CacheSite) (m : Mode) (x : Extern) (i : Nat)
    (R : World → World → Prop) (η : Host υ L) (P : υ → Prop) (p : Recv α)
    (Q : α → υ → Prop) : Prop :=
  Triple (Exec.join η.world η.link (exec m i) η.exec) (Either η.world η.link R η.env)
    (fun s s' => c.Allowed x i (η.world s) (η.world s')) P p Q

variable {υ L : Type} {η : Host υ L}
variable {c : CacheSite} {x : Extern} {i : Nat} {R : World → World → Prop} {J : World → Prop}
variable {S S' : Set Bytes} {w w' : World} {d t tn : Bytes} {k : Nat} {A : Bytes} {m : Mode}
variable {P : World → Prop}

/-! ## The stream -/

/-- One answer of the stream. -/
theorem recv_host (op : HostOp) {K : L → Prop} {M : HostOp.Res op → L → Prop} (hP : Stable R P)
    (hK : Stable η.env K) (hM : ∀ r, Stable η.env (M r))
    (h : ∀ l r l', K l → η.exec op l r l' → M r l') :
    c.RecvTriple m x i R η (Both η.world η.link P K)
      (Prog.perform (S := RecvSig) (.inr op)) fun r => Both η.world η.link P (M r) :=
  triple_inr (G := c.Allowed x i) (Allowed.refl c x i) hP hK hM h

/-- What a program does to the file system it does beside the stream. -/
theorem recv_sys {α : Type} {K : L → Prop} {p : Sys α} {Q : α → World → Prop}
    (hK : Stable η.env K) (h : Triple (exec m i) R (c.Allowed x i) P p Q) :
    c.RecvTriple m x i R η (Both η.world η.link P K) (Recv.sys p)
      fun a => Both η.world η.link (Q a) K :=
  triple_inl hK h

/-- The same, where the stream does not matter any more. -/
theorem recv_world {α : Type} {p : Sys α} {Q : α → World → Prop}
    (h : Triple (exec m i) R (c.Allowed x i) P p Q) :
    c.RecvTriple m x i R η (fun s => P (η.world s)) (Recv.sys p) fun a s => Q a (η.world s) :=
  triple_conseq (recv_sys (K := fun _ => True) (Stable.const _) h) (fun _ hs => ⟨hs, trivial⟩)
    fun _ _ hs => hs.1

theorem readTarStreamHeader_spec (f : Feed η) (hP : Stable R P) :
    c.RecvTriple m x i R η (Both η.world η.link P (f.wait true true)) readTarStreamHeader
      fun r => Both η.world η.link P (Read f.first f.fails r) := by
  have hwait : ∀ h e, Stable (Either η.world η.link R η.env)
      (Both η.world η.link P (f.wait h e)) := fun h e => hP.both (f.wait_stable h e)
  have hread : ∀ r, Stable (Either η.world η.link R η.env)
      (Both η.world η.link P (Read f.first f.fails r)) :=
    fun r => hP.both (stable_read f.first_stable r)
  unfold readTarStreamHeader readTarStreamHeaderLoop Prog.loop
  refine triple_iter (b := (true, true)) (I := fun b => Both η.world η.link P (f.wait b.1 b.2))
    (M := fun (r : Except Err TarStreamHeader) => Both η.world η.link P (Read f.first f.fails r))
    (fun b => hwait b.1 b.2) ?_ ?_ ?_
  · exact fun s => Allowed.refl c x i (η.world s)
  · rintro ⟨h, e⟩
    simp only [Prog.bind_eq, Prog.pure_eq]
    split
    · rename_i hclosed
      obtain ⟨rfl, rfl⟩ := hclosed
      exact triple_ret (hwait false false) fun s hs => ⟨hs.1, f.wait_end _ hs.2⟩
    · refine triple_bind (recv_host _ hP (f.wait_stable h e) (f.stable_header h e)
        (f.wait_select h e)) fun r => ?_
      cases r with
      | header hd => exact triple_ret (hread (.ok hd)) fun _ hs => hs
      | headerClosed => exact triple_ret (hwait false e) fun _ hs => hs
      | errClosed => exact triple_ret (hwait h false) fun _ hs => hs
      | err err =>
          cases err with
          | none => exact triple_ret (hwait h e) fun _ hs => hs
          | some err => exact triple_ret (hread (.error err)) fun _ hs => hs
      | done err => exact triple_ret (hread (.error err)) fun _ hs => hs
  · exact fun r => triple_ret (hread r) fun _ hs => hs

theorem readTarHeader_spec (f : Feed η) (hP : Stable R P) (h : TarStreamHeader) :
    c.RecvTriple m x i R η (Both η.world η.link P (f.first h)) readTarHeader
      fun r => Both η.world η.link P (Read (fun data => f.more h data true) f.fails r) := by
  have hread : ∀ r, Stable (Either η.world η.link R η.env)
      (Both η.world η.link P (Read (fun data => f.more h data true) f.fails r)) :=
    fun r => hP.both (stable_read (fun data => f.more_stable h data true) r)
  unfold readTarHeader
  simp only [Prog.bind_eq, Prog.pure_eq]
  refine triple_bind (recv_host _ hP (f.first_stable h)
    (f.stable_data (fun d => f.more_stable h d true)
    (Stable.const _) (f.more_stable h [] true) (f.more_stable h [] true)) (f.first_select h))
    fun r => ?_
  cases r with
  | data data => exact triple_ret (hread (.ok data)) fun _ hs => hs
  | dataClosed =>
      refine triple_bind (recv_host .recvErr hP (Stable.const f.fails)
        (M := fun _ _ => f.fails) (fun _ => Stable.const _) fun _ _ _ hl _ => hl) fun r => ?_
      cases r with
      | none => exact triple_ret (hP.both (Stable.const f.fails)) fun _ hs => hs
      | some e => exact triple_ret (hread (.error e)) fun _ hs => hs
  | errClosed => exact triple_ret (hread (.ok [])) fun _ hs => hs
  | err err =>
      cases err with
      | none => exact triple_ret (hread (.ok [])) fun _ hs => hs
      | some err => exact triple_ret (hread (.error err)) fun _ hs => hs
  | done err => exact triple_ret (hread (.error err)) fun _ hs => hs

/-! ## The body -/

/-- One `select` of `readTarBody`. -/
theorem recv_more (f : Feed η) (hP : Stable R P) (h : TarStreamHeader) (A : Bytes) (e : Bool) :
    c.RecvTriple m x i R η (Both η.world η.link P (f.more h A e)) (Recv.selectData e)
      fun r => Both η.world η.link P (DataEvent.Leads (fun d => f.more h (A ++ d) e)
        (f.last h A e) (f.more h A e) (f.more h A false) f.fails r) :=
  recv_host (.selectData e) hP (f.more_stable h A e)
    (f.stable_data (fun d => f.more_stable h (A ++ d) e) (f.last_stable h A e)
      (f.more_stable h A e) (f.more_stable h A false)) (f.more_select h A e)

/-- The drain of the error channel at its end. -/
theorem recv_last (f : Feed η) (hP : Stable R P) (h : TarStreamHeader) (A : Bytes) (e : Bool) :
    c.RecvTriple m x i R η (Both η.world η.link P (f.last h A e)) (Recv.pollErr e)
      fun r => Both η.world η.link P fun _ => (r = none → f.whole h A) ∧
        ∀ err, r = some err → f.fails := by
  refine recv_host (.pollErr e) hP (f.last_stable h A e) (fun r => Stable.const _) ?_
  intro l r l' hl hE
  refine ⟨fun hr => ?_, fun err hr => ?_⟩
  · subst hr
    exact (f.last_poll h A e l l' hl).1 hE
  · subst hr
    exact (f.last_poll h A e l l' hl).2 err hE

/-- The loop of `readTarBody` for any use of the data: `I A` is what holds when `A`
has come, and `step` is what is done with more of it. -/
theorem readTarBodyLoop_spec (f : Feed η) (h : TarStreamHeader) (fd : Option Fd)
    (I : Bytes → World → Prop) (lost : World → Prop) (hI : ∀ A, Stable R (I A))
    (hlost : Stable R lost)
    (step : ∀ A d e, c.RecvTriple m x i R η (Both η.world η.link (I A) (f.more h (A ++ d) e))
      (match fd with
        | none => Prog.ret (.inl e)
        | some fd => (Recv.sys (Sys.write fd d)).bind fun r => match r with
          | .error e => Prog.ret (.inr (.error (.sys e)))
          | .ok () => Prog.ret (.inl e))
      (Round (fun e s => ∃ A, Both η.world η.link (I A) (f.more h A e) s)
        fun (r : Except Err Unit) s => r ≠ .ok () ∧ lost (η.world s)))
    (A : Bytes) :
    c.RecvTriple m x i R η (Both η.world η.link (I A) (f.more h A true)) (readTarBodyLoop fd)
      fun r s => match r with
        | .ok () => ∃ A, f.whole h A ∧ I A (η.world s)
        | .error _ => (f.fails ∧ ∃ A, I A (η.world s)) ∨ lost (η.world s) := by
  have hmore : ∀ e A, Stable (Either η.world η.link R η.env)
      (Both η.world η.link (I A) (f.more h A e)) := fun e A => (hI A).both (f.more_stable h A e)
  have hconst : ∀ A (φ : Prop), Stable (Either η.world η.link R η.env)
      (Both η.world η.link (I A) fun _ => φ) := fun A φ => (hI A).both (Stable.const φ)
  unfold readTarBodyLoop Prog.loop
  refine triple_pre (triple_iter (b := true)
    (I := fun e s => ∃ A, Both η.world η.link (I A) (f.more h A e) s)
    (M := fun (r : Except Err Unit) s => match r with
      | .ok () => ∃ A, f.whole h A ∧ I A (η.world s)
      | .error _ => (f.fails ∧ ∃ A, I A (η.world s)) ∨ lost (η.world s))
    (fun e => Stable.exists (hmore e)) ?_ ?_ fun r => triple_ret ?_ fun _ hs => hs) fun s hs =>
      ⟨A, hs⟩
  · exact fun s => Allowed.refl c x i (η.world s)
  · intro e
    refine triple_exists fun A => ?_
    simp only [Prog.bind_eq, Prog.pure_eq]
    refine triple_bind (recv_more f (hI A) h A e) fun r => ?_
    cases r with
    | data d =>
        refine triple_post (step A d e) fun y s hs => ?_
        cases y with
        | inl e => exact hs
        | inr r =>
            cases r with
            | ok _ => exact absurd rfl hs.1
            | error e => exact .inr hs.2
    | dataClosed =>
        refine triple_bind (recv_last f (hI A) h A e) fun r => ?_
        cases r with
        | none => exact triple_ret (hconst A _) fun s hs => ⟨A, hs.2.1 rfl, hs.1⟩
        | some err => exact triple_ret (hconst A _) fun s hs => .inl ⟨hs.2.2 err rfl, A, hs.1⟩
    | errClosed => exact triple_ret (hmore false A) fun s hs => ⟨A, hs⟩
    | err err =>
        cases err with
        | none => exact triple_ret (hmore e A) fun s hs => ⟨A, hs⟩
        | some err => exact triple_ret (hconst A _) fun s hs => .inl ⟨hs.2, A, hs.1⟩
    | done err => exact triple_ret (hconst A _) fun s hs => .inl ⟨hs.2, A, hs.1⟩
  · cases r with
    | ok _ => exact Stable.exists fun A => (Stable.const _).and (hI A).part
    | error e => exact ((Stable.const _).and (Stable.exists fun A => (hI A).part)).or hlost.part

/-- A cached context: the data is read and dropped. -/
theorem readTarBody_cached (f : Feed η) (hP : Stable R P) (h : TarStreamHeader) :
    c.RecvTriple m x i R η (Both η.world η.link P (f.more h A true)) (readTarBody [] true)
      fun r s => (match r with
        | .ok () => True
        | .error _ => f.fails) ∧ P (η.world s) := by
  have hspec := readTarBodyLoop_spec (c := c) (m := m) (x := x) (i := i) f h none
    (fun _ => P) (fun _ => False) (fun _ => hP) (Stable.const _)
    (fun A d e => triple_ret (hP.both (f.more_stable h (A ++ d) e)) fun s hs => ⟨A ++ d, hs⟩) A
  refine triple_post hspec fun r s hs => ?_
  cases r with
  | ok _ =>
      obtain ⟨_, _, hw⟩ := hs
      exact ⟨trivial, hw⟩
  | error e =>
      rcases hs with ⟨hf, _, hw⟩ | hlost
      · exact ⟨hf, hw⟩
      · exact hlost.elim

/-- The archive file holds all the data, or as much of it as has come. -/
def BodyRead (c : CacheSite) (m : Mode) (i : Nat) (J : World → Prop) (S : Set Bytes) (tn : Bytes)
    (k : Nat) (f : Feed η) (h : TarStreamHeader) (r : Except Err Unit) (w : World) : Prop :=
  match r with
  | .ok () => ∃ A, f.whole h A ∧ c.Fetched i J S tn k A w
  | .error _ => (f.fails ∨ m.Faulty) ∧ ∃ A, c.Fetched i J S tn k A w

theorem Setting.bodyRead (g : c.Setting x i R J) (f : Feed η) (h : TarStreamHeader)
    (r : Except Err Unit) : Stable R (c.BodyRead m i J S tn k f h r) := by
  cases r with
  | ok _ => exact Stable.exists fun A => (Stable.const _).and g.fetched
  | error e => exact (Stable.const _).and (Stable.exists fun A => g.fetched)

theorem Setting.readTarBody_spec (g : c.Setting x i R J) (f : Feed η) (h : TarStreamHeader) :
    c.RecvTriple m x i R η (Both η.world η.link (c.Fetched i J S tn k A) (f.more h A true))
      (readTarBody (c.site.path [tn]) false) fun r s =>
        c.BodyRead m i J S tn k f h r (η.world s) := by
  have hmore := f.more_stable h A true
  have hfetched : ∀ A, Stable R (c.Fetched i J S tn k A) := fun _ => g.fetched
  have hloop := readTarBodyLoop_spec (c := c) (m := m) (x := x) (i := i) f h (some k)
    (c.Fetched i J S tn k) (fun w => m.Faulty ∧ ∃ A, c.Fetched i J S tn k A w)
    hfetched ((Stable.const _).and (Stable.exists hfetched)) ?_ A
  · unfold readTarBody
    simp only [Bool.false_eq_true, if_false, Prog.bind_eq, Prog.pure_eq]
    refine triple_bind (recv_sys hmore g.openAppend) fun r => ?_
    refine triple_pre (P := fun s => (r = .ok k ∨ (∃ e, r = .error e) ∧ m.Faulty) ∧
      Both η.world η.link (c.Fetched i J S tn k A) (f.more h A true) s) ?_
      fun s hs => ⟨hs.1.1, hs.1.2, hs.2⟩
    refine triple_pure fun hr => ?_
    rcases hr with rfl | ⟨⟨e, rfl⟩, hf⟩
    · refine triple_bind hloop fun r => ?_
      refine triple_pre (P := fun s => c.BodyRead m i J S tn k f h r (η.world s)) ?_ fun s hs => ?_
      · refine triple_bind (recv_world (Setting.close (g.bodyRead f h r) k)) fun _ => ?_
        exact triple_ret ((Stable.const _).and (g.bodyRead f h r)).part fun s hs => hs.2
      · cases r with
        | ok _ => exact hs
        | error e =>
            rcases hs with ⟨hf, hA⟩ | ⟨hf, hA⟩
            · exact ⟨.inl hf, hA⟩
            · exact ⟨.inr hf, hA⟩
    · exact triple_ret (g.fetched.both hmore) fun s hs => ⟨.inr hf, A, hs.1⟩
  · intro A d e
    have hmore' := f.more_stable h (A ++ d) e
    refine triple_bind (recv_sys hmore' (g.writeTarFile d)) fun r => ?_
    cases r with
    | ok _ => exact triple_ret ((hfetched _).both hmore') fun s hs => ⟨A ++ d, hs⟩
    | error err =>
        refine triple_ret (Stable.both (((g.settled S).and (Stable.exists fun _ => g.tarFile)).and
          (Stable.const _)) hmore') fun s hs => ?_
        obtain ⟨⟨⟨hsettled, A', htar⟩, hf⟩, _⟩ := hs
        exact ⟨by simp, hf, A', hsettled, htar⟩

/-! ## The download -/

/-- Removing the archive file, whatever else has been left. -/
theorem Setting.removeTar_left (g : c.Setting x i R J) :
    Triple (exec m i) R (c.Allowed x i)
      (fun w => c.Left m i J (insert tn S) w ∧ c.TarFile i tn k A w)
      (Sys.remove (c.site.path [tn])) fun _ w => c.Left m i J S w := by
  by_cases hm : c.Sweeps m
  · exact triple_pre g.removeTar fun w hw => ⟨hw.1.2 hm, hw.2⟩
  · refine triple_conseq (g.removeTar (S := Set.univ)) (fun w hw => ⟨?_, hw.2⟩) fun _ w hw => ?_
    · exact hw.1.1.mono (Set.subset_insert tn Set.univ)
    · exact ⟨hw.1, fun hm' => absurd hm' hm⟩

/-- Why a download may fail. -/
def DownloadFails (c : CacheSite) (m : Mode) (x : Extern) (J : World → Prop) (f : Feed η)
    (h : TarStreamHeader) : Prop :=
  m.Faulty ∨ f.fails ∨ ∃ A, f.whole h A ∧
    (hexEncode (x.sha256 A) ≠ h.checksum ∨ c.Broken m x J h.checksum A)

/-- What a download leaves: the entry and the archive file, or nothing. -/
def Downloaded (c : CacheSite) (m : Mode) (x : Extern) (i : Nat) (J : World → Prop) (S : Set Bytes)
    (f : Feed η) (h : TarStreamHeader) (r : Except Err Bytes) (w : World) : Prop :=
  match r with
  | .ok path => ∃ tn k A, (path = c.site.path [tn] ∧ f.whole h A ∧
      hexEncode (x.sha256 A) = h.checksum) ∧
      c.Delivered x i J (insert tn S) tn k A h.checksum w
  | .error _ => c.DownloadFails m x J f h ∧ c.Left m i J S w

variable {h : TarStreamHeader} {bad : Bytes → Prop}

theorem Setting.downloaded (g : c.Setting x i R J) (f : Feed η) (hd : IsDigest h.checksum)
    (r : Except Err Bytes) : Stable R (c.Downloaded m x i J S f h r) := by
  cases r with
  | ok path =>
      exact Stable.exists fun tn => Stable.exists fun k => Stable.exists fun A =>
        (Stable.const _).and (g.delivered hd)
  | error e => exact (Stable.const _).and (g.left m S)

theorem Setting.downloadContext_spec (g : c.Setting x i R J) (f : Feed η) (hd : IsDigest h.checksum)
    (data : Bytes) :
    c.RecvTriple m x i R η (Both η.world η.link (c.Settled i J S) (f.more h data true))
      (downloadContext x c.base (c.site.path [h.checksum]) h.checksum data)
      fun r s => c.Downloaded m x i J S f h r (η.world s) := by
  -- every failure from here on ends with the removal of the file
  have hremove : ∀ {tn k A} (e : Err), c.DownloadFails m x J f h →
      c.RecvTriple m x i R η
        (fun s => c.Left m i J (insert tn S) (η.world s) ∧ c.TarFile i tn k A (η.world s))
        ((Recv.sys (Sys.remove (c.site.path [tn]))).bind fun _ => Prog.ret (.error e))
        fun r s => c.Downloaded m x i J S f h r (η.world s) :=
    fun e hf => triple_bind (recv_world g.removeTar_left) fun _ =>
      triple_ret (g.left m S).part fun s hs => ⟨hf, hs⟩
  unfold downloadContext
  simp only [Prog.bind_eq, Prog.pure_eq]
  refine triple_bind (recv_sys (f.more_stable h data true) (g.writeTar_spec data)) fun r => ?_
  cases r with
  | error e =>
      refine triple_ret (((g.left m S).and (Stable.const _)).both (f.more_stable h data true))
        fun s hs => ⟨.inl hs.1.2, hs.1.1⟩
  | ok path =>
      refine triple_pre (P := fun s => ∃ tn k, path = c.site.path [tn] ∧
        Both η.world η.link (c.Fetched i J (insert tn S) tn k data) (f.more h data true) s) ?_ ?_
      · refine triple_exists fun tn => triple_exists fun k => triple_pure fun hpath => ?_
        subst hpath
        refine triple_bind (g.readTarBody_spec f h) fun r => ?_
        cases r with
        | error e =>
            refine triple_pure fun hf => triple_exists fun A => ?_
            refine triple_pre (hremove e ?_) fun s hs => ⟨hs.1.left m, hs.2⟩
            exact hf.elim (fun h => .inr (.inl h)) .inl
        | ok _ =>
            refine triple_exists fun A => triple_pure fun hwhole => ?_
            refine triple_bind (recv_world (g.verifyTarHash_spec h.checksum)) fun r => ?_
            refine triple_pure fun hr => ?_
            cases r with
            | error e =>
                refine triple_pre (hremove e ?_) fun s hs => ⟨hs.1.left m, hs.2⟩
                rcases hr with hne | hf
                · exact .inr (.inr ⟨A, hwhole, .inl hne⟩)
                · exact .inl hf
            | ok _ =>
                refine triple_bind (recv_world (g.publishTar_spec hd hr)) fun r => ?_
                cases r with
                | error e =>
                    refine triple_pure fun hb => ?_
                    exact hremove e (.inr (.inr ⟨A, hwhole, .inr hb⟩))
                | ok _ =>
                    refine triple_ret (g.delivered hd).part fun s hs => ?_
                    exact ⟨tn, k, A, ⟨rfl, hwhole, hr⟩, hs⟩
      · rintro s ⟨⟨tn, k, hpath, hw⟩, hmore⟩
        exact ⟨tn, k, hpath, hw, hmore⟩

/-! ## Up to the walk -/

/-- What a call leaves that may not have come to create the cache directory. -/
def Swept (c : CacheSite) (m : Mode) (i : Nat) (J : World → Prop) (S : Set Bytes) (w : World) :
    Prop :=
  c.Stage i J Set.univ w ∧ (c.Sweeps m → c.Stage i J S w)

theorem Setting.swept (g : c.Setting x i R J) (m : Mode) (S : Set Bytes) :
    Stable R (c.Swept m i J S) :=
  fun w w' hR h => ⟨g.stage _ w w' hR h.1, fun hm => g.stage S w w' hR (h.2 hm)⟩

theorem Stage.swept (h : c.Stage i J S w) (m : Mode) : c.Swept m i J S w :=
  ⟨⟨h.rooted, h.inv, fun _ _ => trivial⟩, fun _ => h⟩

theorem Left.swept (h : c.Left m i J S w) : c.Swept m i J S w :=
  ⟨h.1.toStage, fun hm => (h.2 hm).toStage⟩

/-- The answer of the first check, which is made without the lock. -/
def Checked (c : CacheSite) (bad : Bytes → Prop) (i : Nat) (J : World → Prop) (S : Set Bytes)
    (d : Bytes) (r : Except Err Bool) (w : World) : Prop :=
  match r with
  | .ok true => c.Settled i J S w ∧ c.Complete w d
  | .ok false => c.Settled i J S w
  | .error _ => bad d ∧ c.Settled i J S w

/-- Why a call may fail before the walk; `bad` is where the first check may fail. -/
def FetchFails (c : CacheSite) (m : Mode) (x : Extern) (J : World → Prop) (f : Feed η)
    (bad : Bytes → Prop) : Prop :=
  m.Faulty ∨ f.fails ∨ ∃ h, f.sent h ∧
    (¬ IsDigest h.checksum ∨ bad h.checksum ∨ h.complete = true ∨ c.DownloadFails m x J f h)

/-- What is left before the walk. -/
def ContextFetched (c : CacheSite) (m : Mode) (x : Extern) (i : Nat) (J : World → Prop)
    (S : Set Bytes) (f : Feed η) (bad : Bytes → Prop)
    (r : Except Err (Bytes × Option Bytes)) (w : World) : Prop :=
  match r with
  | .error _ => c.FetchFails m x J f bad ∧ c.Swept m i J S w
  | .ok (d, none) => (IsDigest d ∧ ∃ h, f.sent h ∧ h.checksum = d) ∧ c.Settled i J S w ∧
    c.Complete w d
  | .ok (d, some path) => IsDigest d ∧ ∃ h tn k A, (f.sent h ∧ h.checksum = d ∧
      path = c.site.path [tn] ∧ f.whole h A ∧ hexEncode (x.sha256 A) = d) ∧
      c.Delivered x i J (insert tn S) tn k A d w

theorem Setting.fetchWith_spec (g : c.Setting x i R J) (f : Feed η)
    (hcheck : ∀ d, IsDigest d → Triple (exec m i) R (c.Allowed x i) (c.Settled i J S)
      (checkCache (c.site.path [d])) (c.Checked bad i J S d)) (hsent : f.sent h) :
    c.RecvTriple m x i R η (Both η.world η.link (c.Stage i J S) (f.first h))
      (fetchWith x c.base h) fun r s => c.ContextFetched m x i J S f bad r (η.world s) := by
  have hfirst := f.first_stable h
  have hfail : ∀ {e : Err} {w}, (¬ IsDigest h.checksum ∨ bad h.checksum ∨ h.complete = true ∨
      c.DownloadFails m x J f h) → c.Swept m i J S w →
      c.ContextFetched m x i J S f bad (.error e) w :=
    fun hf hw => ⟨.inr (.inr ⟨h, hsent, hf⟩), hw⟩
  unfold fetchWith
  simp only [Prog.bind_eq, Prog.pure_eq]
  cases hv : validateContextDigest h.checksum with
  | error e =>
      refine triple_ret ((g.stage S).both hfirst) fun s hs => hfail (.inl ?_) (hs.1.swept m)
      intro hd
      rw [IsDigest, hv] at hd
      cases hd
  | ok _ =>
      have hd : IsDigest h.checksum := hv
      simp only [join_base c hd.name, cachedContextPresent, hv]
      refine triple_except (recv_sys hfirst (g.mkdirAll_base 0o755)) (fun e => ?_) fun _ => ?_
      · refine triple_ret (((g.stage S).and (Stable.const _)).both hfirst) fun s hs => ?_
        exact ⟨.inl hs.1.2, hs.1.1.swept m⟩
      refine triple_except (recv_sys hfirst (hcheck h.checksum hd)) (fun e => ?_) fun cached => ?_
      · refine triple_ret (((Stable.const _).and (g.settled S)).both hfirst) fun s hs => ?_
        exact hfail (.inr (.inl hs.1.1)) (hs.1.2.toStage.swept m)
      cases cached with
      | true =>
          have hcomplete := g.complete (S := S) hd
          simp only [Bool.true_eq_false, if_false, if_true]
          split
          · refine triple_ret (hcomplete.both hfirst) fun s hs => ?_
            exact ⟨⟨hd, h, hsent, rfl⟩, hs.1⟩
          refine triple_except (readTarHeader_spec f hcomplete h) (fun e => ?_) fun data => ?_
          · refine triple_ret (hcomplete.both (Stable.const _)) fun s hs => ?_
            exact ⟨.inr (.inl hs.2), hs.1.1.toStage.swept m⟩
          refine triple_except (readTarBody_cached f hcomplete h) (fun e => ?_) fun _ => ?_
          · refine triple_pure fun hr => triple_ret hcomplete.part fun s hs => ?_
            exact ⟨.inr (.inl hr), hs.1.toStage.swept m⟩
          · refine triple_pure fun _ => triple_ret hcomplete.part fun s hs => ?_
            exact ⟨⟨hd, h, hsent, rfl⟩, hs⟩
      | false =>
          simp only [Bool.false_eq_true, if_true, if_false]
          split
          · rename_i hc
            refine triple_ret ((g.settled S).both hfirst) fun s hs => ?_
            exact hfail (.inr (.inr (.inl hc))) (hs.1.toStage.swept m)
          refine triple_except (readTarHeader_spec f (g.settled S) h) (fun e => ?_) fun data => ?_
          · refine triple_ret ((g.settled S).both (Stable.const _)) fun s hs => ?_
            exact ⟨.inr (.inl hs.2), hs.1.toStage.swept m⟩
          refine triple_except (g.downloadContext_spec f hd data) (fun e => ?_) fun path => ?_
          · refine triple_ret (g.downloaded f hd (.error e)).part fun s hs => ?_
            exact hfail (.inr (.inr (.inr hs.1))) hs.2.swept
          · refine triple_ret (g.downloaded f hd (.ok path)).part fun s hs => ?_
            obtain ⟨tn, k, A, ⟨hpath, hwhole, hhash⟩, hdel⟩ := hs
            exact ⟨hd, h, tn, k, A, ⟨hsent, rfl, hpath, hwhole, hhash⟩, hdel⟩

theorem Setting.fetchContext_spec (g : c.Setting x i R J) (f : Feed η)
    (hcheck : ∀ d, IsDigest d → Triple (exec m i) R (c.Allowed x i) (c.Settled i J S)
      (checkCache (c.site.path [d])) (c.Checked bad i J S d)) :
    c.RecvTriple m x i R η (Both η.world η.link (c.Stage i J S) (f.wait true true))
      (fetchContext x c.base) fun r s => c.ContextFetched m x i J S f bad r (η.world s) := by
  unfold fetchContext
  simp only [Prog.bind_eq, Prog.pure_eq]
  refine triple_bind (readTarStreamHeader_spec f (g.stage S)) fun r => ?_
  cases r with
  | error e =>
      refine triple_ret ((g.stage S).both (Stable.const _)) fun s hs => ?_
      exact ⟨.inr (.inl hs.2), hs.1.swept m⟩
  | ok h => exact triple_fact (fun s hs => f.first_sent h _ hs.2) fun hsent =>
      g.fetchWith_spec f hcheck hsent

/-! ## The walk -/

/-- The callback is not asked to keep anything, and cannot reach the cache. -/
theorem recv_visit (hP : Stable R P) (entry : WalkEntry) :
    c.RecvTriple m x i R η (fun s => P (η.world s)) (Recv.visit entry) fun _ s => P (η.world s) :=
  triple_conseq (recv_host (.visit entry) (K := fun _ => True) (M := fun _ _ => True) hP
    (Stable.const _) (fun _ => Stable.const _) fun _ _ _ _ _ => trivial)
    (fun _ hs => ⟨hs, trivial⟩) fun _ _ hs => hs.1

theorem walkCachedEntry_keeps (hP : Stable R P) (cacheDir path : Bytes) (content : Content) :
    c.RecvTriple m x i R η (fun s => P (η.world s)) (walkCachedEntry cacheDir path content)
      fun _ s => P (η.world s) := by
  have hret : ∀ v : Verdict, c.RecvTriple m x i R η (fun s => P (η.world s)) (Prog.ret v)
      fun _ s => P (η.world s) := fun v => triple_ret hP.part fun _ hs => hs
  unfold walkCachedEntry
  split
  · exact hret _
  · split
    · exact hret _
    · split
      · exact hret _
      · exact recv_visit hP _

mutual

theorem walkTree_keeps (hP : Stable R P) (cacheDir : Bytes) : (t : Tree) → (path : Bytes) →
    c.RecvTriple m x i R η (fun s => P (η.world s)) (walkTree cacheDir t path)
      fun _ s => P (η.world s)
  | .file perm data, path => by
      unfold walkTree
      exact walkCachedEntry_keeps hP cacheDir path _
  | .symlink target, path => by
      unfold walkTree
      exact walkCachedEntry_keeps hP cacheDir path _
  | .dir perm children, path => by
      unfold walkTree
      refine triple_bind (walkCachedEntry_keeps hP cacheDir path _) fun v => ?_
      cases v with
      | proceed => exact walkEntries_keeps hP cacheDir children path
      | skipDir | skipAll | fail e => exact triple_ret hP.part fun _ hs => hs

theorem walkEntries_keeps (hP : Stable R P) (cacheDir : Bytes) :
    (children : List (Bytes × Tree)) → (path : Bytes) →
    c.RecvTriple m x i R η (fun s => P (η.world s)) (walkEntries cacheDir children path)
      fun _ s => P (η.world s)
  | [], path => by
      unfold walkEntries
      exact triple_ret hP.part fun _ hs => hs
  | (name, t) :: children, path => by
      unfold walkEntries
      refine triple_bind (walkTree_keeps hP cacheDir t (join path name)) fun v => ?_
      cases v with
      | proceed => exact walkEntries_keeps hP cacheDir children path
      | skipDir =>
          simp only
          split
          · exact walkEntries_keeps hP cacheDir children path
          · exact triple_ret hP.part fun _ hs => hs
      | skipAll | fail e => exact triple_ret hP.part fun _ hs => hs

end

theorem walkCachedContext_keeps (hP : Stable R P) (cacheDir : Bytes) :
    c.RecvTriple m x i R η (fun s => P (η.world s)) (walkCachedContext cacheDir)
      fun _ s => P (η.world s) := by
  have hret : ∀ r : Option Err, c.RecvTriple m x i R η (fun s => P (η.world s)) (Prog.ret r)
      fun _ s => P (η.world s) := fun r => triple_ret hP.part fun _ hs => hs
  unfold walkCachedContext
  refine triple_bind (recv_world (triple_reads (.snapshot cacheDir) (Allowed.refl c x i) hP
    (F := fun _ => True) ?_)) fun r => triple_pre ?_ fun _ hs => hs.2
  · intro w r w' _ hE
    rcases hE with ⟨hw, _⟩ | ⟨_, _, hw⟩ | ⟨_, hC⟩
    · exact ⟨hw, trivial⟩
    · exact ⟨hw, trivial⟩
    · exact hC.elim
  · cases r with
    | error e => exact hret _
    | ok t =>
        refine triple_bind (walkTree_keeps hP cacheDir t cacheDir) fun v => ?_
        cases v with
        | fail e => exact hret _
        | proceed | skipDir | skipAll => exact hret _

/-! ## The whole call -/

/-- The entry `d` is complete and shows `T`. -/
def Kept (c : CacheSite) (d : Bytes) (T : TreeMap) (w : World) : Prop :=
  c.Complete w d ∧ ∀ rel, w.fs.view (c.child d) rel = T rel

/-- A complete entry stays as it is, whoever takes a step. -/
theorem Setting.stays (g : c.Setting x i R J) (hd : IsDigest d) (T : TreeMap) :
    c.Setting x i R (c.Kept d T) where
  rely := g.rely
  env w w' hr hR h := by
    obtain ⟨j, _, hstep⟩ := g.rely w w' hR
    obtain ⟨hc, hview⟩ := hstep.complete hr hd h.1
    exact ⟨hc, fun rel => (hview rel).trans (h.2 rel)⟩
  own w w' hr ht h := by
    obtain ⟨hc, hview⟩ := Allowed.complete (x := x) (.inl ht) hr hd h.1
    exact ⟨hc, fun rel => (hview rel).trans (h.2 rel)⟩

theorem Settled.kept (h : c.Settled i J S w) (hc : c.Complete w d) :
    c.Settled i (c.Kept d (w.fs.view (c.child d))) S w :=
  ⟨⟨h.rooted, ⟨hc, fun _ => rfl⟩, h.temps⟩, h.ready⟩

/-- What a call leaves: on an error nothing new, else the complete entry it names. -/
def Received (c : CacheSite) (m : Mode) (x : Extern) (i : Nat) (J : World → Prop) (S : Set Bytes)
    (f : Feed η) (bad : Bytes → Prop) (r : Except Err Bytes × Option Err) (w : World) : Prop :=
  match r.1 with
  | .error _ => c.FetchFails m x J f bad ∧ c.Swept m i J S w
  | .ok d => IsDigest d ∧ ∃ T, c.Left m i (c.Kept d T) S w

theorem Setting.walkFetched_spec (g : c.Setting x i R J) (f : Feed η)
    (r : Except Err (Bytes × Option Bytes)) :
    c.RecvTriple m x i R η (fun s => c.ContextFetched m x i J S f bad r (η.world s))
      (walkFetched c.base r) fun r s => c.Received m x i J S f bad r (η.world s) := by
  unfold walkFetched
  simp only [Prog.bind_eq, Prog.pure_eq]
  split
  · rename_i e
    exact triple_ret ((Stable.const _).and (g.swept m S)).part fun _ hs => hs
  · rename_i d tarFile
    cases tarFile with
    | none =>
        refine triple_pure fun hd => ?_
        have hcomplete := g.complete (S := S) hd.1
        refine triple_bind (walkCachedContext_keeps hcomplete _) fun walked => ?_
        refine triple_ret hcomplete.part fun s hs => ?_
        exact ⟨hd.1, _, (hs.1.kept hs.2).left m⟩
    | some path =>
        refine triple_pure fun hd => triple_exists fun h => triple_exists fun tn => ?_
        refine triple_exists fun k => triple_exists fun A => triple_pure fun hfacts => ?_
        obtain ⟨_, _, rfl, _⟩ := hfacts
        refine triple_pre (P := fun s => ∃ T,
          c.Fetched i (c.Kept d T) (insert tn S) tn k A (η.world s)) ?_ fun s hs => ?_
        · refine triple_exists fun T => ?_
          refine triple_bind (walkCachedContext_keeps (g.stays hd T).fetched _) fun walked => ?_
          refine triple_bind (recv_world (g.stays hd T).removeTar) fun _ => ?_
          exact triple_ret ((g.stays hd T).left m S).part fun s hs => ⟨hd, T, hs⟩
        · exact ⟨_, hs.1.1.1.kept hs.1.2, hs.1.1.2⟩

theorem Setting.receive_spec (g : c.Setting x i R J) (f : Feed η)
    (hcheck : ∀ d, IsDigest d → Triple (exec m i) R (c.Allowed x i) (c.Settled i J S)
      (checkCache (c.site.path [d])) (c.Checked bad i J S d)) :
    c.RecvTriple m x i R η (Both η.world η.link (c.Stage i J S) (f.wait true true))
      (receive x c.base) fun r s => c.Received m x i J S f bad r (η.world s) :=
  triple_bind (g.fetchContext_spec f hcheck) fun r => g.walkFetched_spec f r

end CacheSite

end BuilderShim.Fileutils
