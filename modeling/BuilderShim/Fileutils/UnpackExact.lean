/-
  Fileutils/UnpackExact.lean --- `unpackTar` alone on a machine that does not fail.

  It returns, and whether it succeeds and what is below the destination then is
  read off the entries of the archive (`Accepted`, `Placed`).  Where no entry is a
  hard link neither depends on their order.
-/
import BuilderShim.Posix.Answered
import BuilderShim.Fileutils.Contain
import BuilderShim.Fileutils.Layout

set_option autoImplicit false

namespace BuilderShim.Fileutils

open BuilderShim.Filepath
open BuilderShim.Foundation
open BuilderShim.Posix

/-! ## Unpacking comes to an end -/

/-- The program makes finitely many calls, none of which blocks. -/
abbrev Ends {α : Type} (p : Sys α) : Prop := Prog.Ends (S := FsSig) FsOp.Answered p

theorem ends_bind {α β : Type} {p : Sys α} {f : α → Sys β} (hp : Ends p)
    (hf : ∀ a, Ends (f a)) : Ends (p >>= f) :=
  Prog.Ends.bind hp hf

theorem mkdirLast_ends (path : Bytes) (perm : Nat) : Ends (Os.mkdirLast path perm) := by
  refine ends_bind (Prog.Ends.perform trivial) fun r => ?_
  cases r with
  | ok u => exact .ret _
  | error e =>
      refine ends_bind (Prog.Ends.perform trivial) fun r => ?_
      cases r with
      | ok info =>
          dsimp only
          split
          · exact .ret _
          · exact .ret _
      | error e => exact .ret _

theorem mkdirAllFrom_ends (fuel : Nat) (path : Bytes) (perm : Nat) :
    Ends (Os.mkdirAllFrom fuel path perm) := by
  induction fuel generalizing path with
  | zero =>
      refine ends_bind (Prog.Ends.perform trivial) fun r => ?_
      cases r with
      | ok info =>
          dsimp only
          split
          · exact .ret _
          · exact .ret _
      | error e => exact mkdirLast_ends path perm
  | succ fuel ih =>
      refine ends_bind (Prog.Ends.perform trivial) fun r => ?_
      cases r with
      | ok info =>
          dsimp only
          split
          · exact .ret _
          · exact .ret _
      | error e =>
          dsimp only
          split
          · exact mkdirLast_ends path perm
          · refine ends_bind (ih _) fun r => ?_
            cases r with
            | ok u => exact mkdirLast_ends path perm
            | error e => exact .ret _

theorem ensureComponents_ends (current : Bytes) (components : List Bytes) :
    Ends (ensureComponents current components) := by
  induction components generalizing current with
  | nil => exact .ret _
  | cons c components ih =>
      unfold ensureComponents
      split
      · exact ih current
      · refine ends_bind (Prog.Ends.perform trivial) fun r => ?_
        split
        · refine ends_bind (Prog.Ends.perform trivial) fun r => ?_
          split
          · exact .ret _
          · exact ih _
        · exact .ret _
        · split
          · exact .ret _
          · exact ih _

theorem ensurePathParent_ends (root target : Bytes) : Ends (ensurePathParent root target) := by
  unfold ensurePathParent
  split
  · exact .ret _
  · split
    · exact .ret _
    · exact ensureComponents_ends _ _

theorem ensureDirectory_ends (root target : Bytes) : Ends (ensureDirectory root target) := by
  refine ends_bind (ensurePathParent_ends root target) fun r => ?_
  split
  · exact .ret _
  · refine ends_bind (Prog.Ends.perform trivial) fun r => ?_
    split
    · exact ends_bind (Prog.Ends.perform trivial) fun r => .ret _
    · exact .ret _
    · split
      · exact .ret _
      · exact .ret _

theorem ensureNewPath_ends (root target : Bytes) : Ends (ensureNewPath root target) := by
  refine ends_bind (ensurePathParent_ends root target) fun r => ?_
  split
  · exact .ret _
  · refine ends_bind (Prog.Ends.perform trivial) fun r => ?_
    split
    · exact .ret _
    · exact .ret _
    · exact .ret _

theorem copyBody_ends (fd : Fd) (bodyErr : Option Err) (pieces : List Bytes) :
    Ends (copyBody fd bodyErr pieces) := by
  induction pieces with
  | nil =>
      unfold copyBody
      split
      · exact .ret _
      · exact .ret _
  | cons piece pieces ih =>
      refine ends_bind (Prog.Ends.perform trivial) fun r => ?_
      split
      · exact .ret _
      · exact ih

theorem unpackFile_ends (dest target : Bytes) (hdr : TarEntry) :
    Ends (unpackFile dest target hdr) := by
  refine ends_bind (ensureNewPath_ends dest target) fun r => ?_
  split
  · exact .ret _
  · refine ends_bind (Prog.Ends.perform trivial) fun r => ?_
    split
    · exact .ret _
    · refine ends_bind (copyBody_ends _ _ _) fun r => ?_
      split
      · exact ends_bind (Prog.Ends.perform trivial) fun r => .ret _
      · exact ends_bind (Prog.Ends.perform trivial) fun r => .ret _

theorem unpackLink_ends (dest target : Bytes) (hdr : TarEntry) :
    Ends (unpackLink dest target hdr) := by
  unfold unpackLink
  split
  · exact .ret _
  · refine ends_bind (ensurePathParent_ends _ _) fun r => ?_
    split
    · exact .ret _
    · refine ends_bind (Prog.Ends.perform trivial) fun r => ?_
      split
      · exact .ret _
      · split
        · exact .ret _
        · refine ends_bind (ensureNewPath_ends _ _) fun r => ?_
          split
          · exact .ret _
          · exact ends_bind (Prog.Ends.perform trivial) fun r => .ret _

theorem unpackEntry_ends (dest : Bytes) (hdr : TarEntry) : Ends (unpackEntry dest hdr) := by
  unfold unpackEntry
  split
  · exact .ret _
  · split
    · exact ensureDirectory_ends _ _
    · exact unpackFile_ends _ _ _
    · refine ends_bind (ensureNewPath_ends _ _) fun r => ?_
      split
      · exact .ret _
      · exact ends_bind (Prog.Ends.perform trivial) fun r => .ret _
    · exact unpackLink_ends _ _ _
    · exact .ret _

theorem unpackEntries_ends (dest : Bytes) (failure : Option Err) (entries : List TarEntry) :
    Ends (unpackEntries dest failure entries) := by
  induction entries with
  | nil =>
      refine ends_bind (Prog.Ends.perform trivial) fun r => ?_
      split
      · exact .ret _
      · refine ends_bind (Prog.Ends.perform trivial) fun r => ?_
        split
        · exact .ret _
        · split
          · exact .ret _
          · exact .ret _
  | cons hdr entries ih =>
      refine ends_bind (Prog.Ends.perform trivial) fun r => ?_
      split
      · exact .ret _
      · refine ends_bind (Prog.Ends.perform trivial) fun r => ?_
        split
        · exact .ret _
        · refine ends_bind (unpackEntry_ends dest hdr) fun r => ?_
          split
          · exact .ret _
          · exact ih

theorem unpackTar_ends (untar : Bytes → Archive) (tarFile dest : Bytes) :
    Ends (unpackTar untar tarFile dest) := by
  refine ends_bind (mkdirAllFrom_ends _ _ _) fun r => ?_
  split
  · exact .ret _
  · refine ends_bind (Prog.Ends.perform trivial) fun r => ?_
    split
    · exact .ret _
    · exact unpackEntries_ends _ _ _

/-! ## What it does -/

/-- An empty destination, and an archive that reads as the entries to its end. -/
structure Unpackable (s : Site) (w : World) (untar : Bytes → Archive) (tarFile : Bytes)
    (entries : List TarEntry) : Prop where
  leads : w.fs.At s.rooted s.parts s.loc
  empty : ∀ rel, rel ≠ [] → w.fs.node (s.loc ++ rel) = none
  umask : w.umask = s.umask
  archive : ∃ data, (w.fs.fileAt tarFile).map (fun ino => (w.fs.inode ino).data) = .ok data ∧
    untar data = ⟨entries, none⟩
  bodies : ∀ hdr ∈ entries, hdr.bodyErr = none

/-- `unpackTar` alone, on a machine that does not fail, gets from `w` to `w'` and returns. -/
def Unpacks (tid : Nat) (untar : Bytes → Archive) (tarFile : Bytes) (s : Site) (w : World)
    (r : Except Err Unit) (w' : World) : Prop :=
  ∃ n, Run (exec .calm tid) (fun _ _ => False) n (unpackTar untar tarFile (s.path [])) w
    (.ret r) w'

theorem guarded_alone (s : Site) :
    Guarded s (fun _ _ => False) (fun _ _ => True) fun _ => True where
  quiet _ _ _ h := h.elim
  refl _ := trivial
  allow _ _ _ _ := ⟨trivial, trivial⟩

section

variable {s : Site} {w w' : World} {untar : Bytes → Archive} {tarFile : Bytes}
variable {entries : List TarEntry} {tid : Nat} {r : Except Err Unit}

theorem Unpackable.root (h : Unpackable s w untar tarFile entries) :
    TreeMap.isDir (w.fs.view s.loc) [] :=
  FS.isDir_iff_view.mp (by simpa using h.leads.isDir)

theorem Unpackable.vacant (h : Unpackable s w untar tarFile entries) (q : Loc) (hq : q ≠ []) :
    w.fs.view s.loc q = none :=
  FS.view_eq_none_iff.mpr (h.empty q hq)

/-- It does to the destination what `extractEntries` says. -/
theorem Unpackable.outcome (h : Unpackable s w untar tarFile entries)
    (hrun : Unpacks tid untar tarFile s w r w') :
    Outcome .calm s (fun _ => True) (extractEntries s.umask (w.fs.view s.loc) entries) r w' := by
  obtain ⟨n, hrun⟩ := hrun
  obtain ⟨data, hdata, huntar⟩ := h.archive
  have g := guarded_alone s
  have hs := h.leads.parts_clean
  have hst : ∀ P : World → Prop, Stable (fun _ _ => False) P := fun _ _ _ hno => hno.elim
  have hpath : s.path [] = render s.rooted s.parts := by rw [Site.path, List.append_nil]
  have htriple : Triple (exec .calm tid) (fun _ _ => False) (fun _ _ => True) (· = w)
      (unpackTar untar tarFile (s.path []))
      (Outcome .calm s (fun _ => True) (extractEntries s.umask (w.fs.view s.loc) entries)) := by
    unfold unpackTar
    simp only [Prog.bind_eq]
    refine triple_bind (M := fun r v => (r = .ok () ∨ Mode.calm.Faulty) ∧ v = w) ?_
      fun r => triple_pure fun hr => ?_
    · rw [hpath]
      refine Os.mkdirAllFrom_existing g.refl (hst _) hs ?_ _ _
      rintro v rfl
      exact ⟨s.loc, h.leads.resolve, h.leads.isDir⟩
    have hok : r = .ok () := hr.resolve_right Mode.calm_not_faulty
    subst hok
    refine triple_bind (triple_reads (.readFile tarFile) g.refl (hst _)
      (F := fun x => x = .ok data) fun v x v' hv hE => ?_) fun x => triple_pure fun hx => ?_
    · obtain ⟨hsame, hx⟩ := exec_readFile hE
      subst hv
      exact ⟨hsame, (hx.resolve_right fun hf => hf.1).trans hdata⟩
    · subst hx
      simp only [huntar]
      refine triple_pre (unpackEntries_spec g hs h.root none entries) ?_
      rintro v rfl
      exact ⟨trivial, holds_of_empty h.leads h.empty h.umask⟩
  exact ((htriple w rfl) n _ w' hrun).2 r rfl

/-- It succeeds if and only if the entries are accepted, and then the destination holds what
they say. -/
theorem Unpackable.exact (h : Unpackable s w untar tarFile entries)
    (hrun : Unpacks tid untar tarFile s w r w') :
    (r = .ok () ↔ Accepted (s.path []) entries ∧ ∀ hdr ∈ entries, hdr.Leads) ∧
      (r = .ok () → ∀ q, q ≠ [] → ∀ c,
        w'.fs.view s.loc q = some c ↔ Placed s.umask entries q c) := by
  have hout := h.outcome hrun
  obtain ⟨hiff, hplaced⟩ := extractEntries_empty s.umask h.root h.vacant (s.path [])
    entries h.bodies
  cases r with
  | ok u =>
      obtain ⟨T, hT, hknows⟩ := hout
      refine ⟨⟨fun _ => hiff.mp (by simp [hT]), fun _ => rfl⟩, fun _ q hq c => ?_⟩
      rw [hknows.2.view q]
      exact hplaced T hT q hq c
  | error e =>
      have hnone := hout.1.resolve_right Mode.calm_not_faulty
      exact ⟨⟨nofun, fun hacc => absurd hnone (hiff.mpr hacc)⟩, nofun⟩

end

/-- For every list of entries: `unpackTar` returns; it succeeds if and only if every entry
fits after those before it and every symlink has something it leads to; and then what is
below the destination is exactly what the entries say. -/
theorem unpackTar_exact (tid : Nat) (s : Site) (w : World) (untar : Bytes → Archive)
    (tarFile : Bytes) (entries : List TarEntry) (h : Unpackable s w untar tarFile entries) :
    Inevitable (Alone (exec .calm tid)) Returned (unpackTar untar tarFile (s.path []), w) ∧
    ∀ r w', Unpacks tid untar tarFile s w r w' →
      (r = .ok () ↔ Accepted (s.path []) entries ∧ ∀ hdr ∈ entries, hdr.Leads) ∧
      (r = .ok () → ∀ q, q ≠ [] → ∀ c,
        w'.fs.view s.loc q = some c ↔ Placed s.umask entries q c) :=
  ⟨(unpackTar_ends untar tarFile (s.path [])).returns (exec_answered .calm tid) w,
    fun _ _ hrun => h.exact hrun⟩

/-- Where the archive at `/tar` reads as the entries. -/
theorem containWorld_unpackable {entries : List TarEntry}
    (hbody : ∀ hdr ∈ entries, hdr.bodyErr = none) :
    Unpackable containSite containWorld (fun _ => ⟨entries, none⟩) (lit "/tar") entries where
  leads := containSite_at
  empty := containSite_empty
  umask := rfl
  archive := ⟨[], by decide, rfl⟩
  bodies := hbody

/-- What the simulated run returns is what `unpackTar` returns. -/
theorem unpacks_of_simulate {entries : List TarEntry} {fuel : Nat} {r : Except Err Unit}
    (h : ((simulate 1 fuel (unpackTar (fun _ => ⟨entries, none⟩) (lit "/tar")
      (containSite.path [])) containWorld).bind fun x => result x.1) = some r) :
    ∃ w, Unpacks 1 (fun _ => ⟨entries, none⟩) (lit "/tar") containSite containWorld r w := by
  obtain ⟨⟨p, w⟩, hsim, hr⟩ := Option.bind_eq_some_iff.mp h
  have hp : p = .ret r := result_eq_some hr
  rw [hp] at hsim
  exact ⟨w, fuel, simulate_sound hsim⟩

/-- A list of one entry is accepted if the entry alone is. -/
theorem accepted_singleton {dest : Bytes} {hdr : TarEntry} (h : Fits dest [] hdr) :
    Accepted dest [hdr] := by
  intro earlier hdr' later heq
  cases earlier with
  | nil =>
      obtain ⟨rfl, rfl⟩ := List.cons.inj heq
      exact h
  | cons x earlier =>
      obtain ⟨-, hnil⟩ := List.cons.inj heq
      simp at hnil

/-- A directory, a file in it and a symlink. -/
def threeEntries : List TarEntry :=
  [⟨lit "a", .dir, [], 0, [], none⟩, ⟨lit "a/f", .reg, [], 0o644, [[7]], none⟩,
    ⟨lit "s", .symlink, lit "/etc", 0, [], none⟩]

theorem unpackTar_exact_three :
    ∃ w, Unpacks 1 (fun _ => ⟨threeEntries, none⟩) (lit "/tar") containSite containWorld
      (.ok ()) w ∧
      w.fs.view containSite.loc [lit "a", lit "f"] = some (.file 0o644 [7]) ∧
      w.fs.view containSite.loc [lit "s"] = some (.symlink (lit "/etc")) := by
  have hsim : ((simulate 1 19 (unpackTar (fun _ => ⟨threeEntries, none⟩) (lit "/tar")
      (containSite.path [])) containWorld).bind fun x => result x.1) = some (.ok ()) := by
    decide +kernel
  obtain ⟨w, hrun⟩ := unpacks_of_simulate hsim
  have hexact := (unpackTar_exact 1 containSite containWorld (fun _ => ⟨threeEntries, none⟩)
    (lit "/tar") threeEntries (containWorld_unpackable (by decide))).2 (.ok ()) w hrun
  refine ⟨w, hrun, (hexact.2 rfl _ (by decide) _).mpr ?_, (hexact.2 rfl _ (by decide) _).mpr ?_⟩
  · exact @Placed.file _ _ ⟨lit "a/f", .reg, [], 0o644, [[7]], none⟩ (by decide) rfl
  · exact @Placed.symlink _ _ ⟨lit "s", .symlink, lit "/etc", 0, [], none⟩ (by decide) rfl

/-- A symlink that leads nowhere. -/
def emptyLink : TarEntry := ⟨lit "a", .symlink, [], 0, [], none⟩

/-- It is accepted, but `os.Symlink` fails. -/
theorem unpackTar_empty_linkname :
    Unpackable containSite containWorld (fun _ => ⟨[emptyLink], none⟩) (lit "/tar") [emptyLink] ∧
      Accepted (containSite.path []) [emptyLink] ∧
      ∃ w, Unpacks 1 (fun _ => ⟨[emptyLink], none⟩) (lit "/tar") containSite containWorld
        (.error (.sys .noent)) w := by
  have hfits : Fits (containSite.path []) [] emptyLink :=
    ⟨⟨_, rfl⟩, nofun, by decide, fun _ => ⟨nofun, nofun⟩, nofun, fun _ _ => nofun, nofun⟩
  have hsim : ((simulate 1 6 (unpackTar (fun _ => ⟨[emptyLink], none⟩) (lit "/tar")
      (containSite.path [])) containWorld).bind fun x => result x.1) =
      some (.error (.sys .noent)) := by decide +kernel
  exact ⟨containWorld_unpackable (by decide), accepted_singleton hfits, unpacks_of_simulate hsim⟩

/-- For every list of entries without hard links and every permutation of it: `unpackTar`
succeeds on both, with the same tree, or fails on both. -/
theorem unpackTar_perm (tid : Nat) (s : Site) (w : World) (untar : Bytes → Archive)
    (tarFile tarFile' : Bytes) (entries entries' : List TarEntry)
    (hperm : entries.Perm entries') (hlinks : ∀ hdr ∈ entries, hdr.typeflag ≠ .link)
    (h : Unpackable s w untar tarFile entries) (h' : Unpackable s w untar tarFile' entries') :
    Inevitable (Alone (exec .calm tid)) Returned (unpackTar untar tarFile (s.path []), w) ∧
    Inevitable (Alone (exec .calm tid)) Returned (unpackTar untar tarFile' (s.path []), w) ∧
    ∀ r w₁ r' w₂, Unpacks tid untar tarFile s w r w₁ → Unpacks tid untar tarFile' s w r' w₂ →
      (r = .ok () ∧ r' = .ok () ∧ ∀ q, q ≠ [] → w₁.fs.view s.loc q = w₂.fs.view s.loc q) ∨
        ((∃ e, r = .error e) ∧ ∃ e, r' = .error e) := by
  refine ⟨(unpackTar_ends untar tarFile (s.path [])).returns (exec_answered .calm tid) w,
    (unpackTar_ends untar tarFile' (s.path [])).returns (exec_answered .calm tid) w, ?_⟩
  intro r w₁ r' w₂ hrun hrun'
  obtain ⟨hok, htree⟩ := h.exact hrun
  obtain ⟨hok', htree'⟩ := h'.exact hrun'
  have hsame : r = .ok () ↔ r' = .ok () := by
    rw [hok, hok', accepted_perm hperm hlinks]
    exact and_congr_right fun _ => forall_congr' fun hdr => by rw [hperm.mem_iff]
  cases r with
  | ok u =>
      have hr' := hsame.mp rfl
      refine .inl ⟨rfl, hr', fun q hq => ?_⟩
      refine Option.ext fun c => ?_
      rw [htree rfl q hq c, htree' hr' q hq c, placed_perm hperm]
  | error e =>
      cases r' with
      | ok u => exact absurd (hsame.mpr rfl) (by simp)
      | error e' => exact .inr ⟨⟨e, rfl⟩, e', rfl⟩

/-- The directory `a` and the file `a/f`, in both orders. -/
def twoOrders (data : Bytes) : Archive :=
  if data = [1] then
    ⟨[⟨lit "a", .dir, [], 0, [], none⟩, ⟨lit "a/f", .reg, [], 0o644, [[7]], none⟩], none⟩
  else ⟨[⟨lit "a/f", .reg, [], 0o644, [[7]], none⟩, ⟨lit "a", .dir, [], 0, [], none⟩], none⟩

/-- A machine with an empty directory `/dest` and the archives `/tar` and `/rat`. -/
def twoOrdersWorld : World where
  fs := FS.ofList
    [([], ⟨.dir 0o755, 0⟩), ([lit "dest"], ⟨.dir 0o755, 0⟩), ([lit "tar"], ⟨.file 0, 0⟩),
      ([lit "rat"], ⟨.file 1, 0⟩)] [⟨[1], 0o600⟩, ⟨[2], 0o600⟩] [] (by decide)
  locks := fun _ => none
  umask := 0o022

theorem twoOrdersWorld_unpackable {tarFile : Bytes} {data : Bytes}
    (hdata : (twoOrdersWorld.fs.fileAt tarFile).map
      (fun ino => (twoOrdersWorld.fs.inode ino).data) = .ok data)
    (hfailure : (twoOrders data).failure = none)
    (hbody : ∀ hdr ∈ (twoOrders data).entries, hdr.bodyErr = none) :
    Unpackable containSite twoOrdersWorld twoOrders tarFile (twoOrders data).entries where
  leads := ⟨cleanParts_of_names (by decide), by decide, by decide⟩
  empty := by
    intro rel hne
    obtain ⟨c, rest, rfl⟩ := List.exists_cons_of_ne_nil hne
    rfl
  umask := rfl
  archive := ⟨data, hdata, by rw [← hfailure]⟩
  bodies := hbody

/-- The file is there with its byte after the one run, so also after the other. -/
theorem unpackTar_perm_two :
    ∃ w₁ w₂, Unpacks 1 twoOrders (lit "/tar") containSite twoOrdersWorld (.ok ()) w₁ ∧
      Unpacks 1 twoOrders (lit "/rat") containSite twoOrdersWorld (.ok ()) w₂ ∧
      w₂.fs.view containSite.loc [lit "a", lit "f"] =
        w₁.fs.view containSite.loc [lit "a", lit "f"] := by
  have hreturns : ∀ tarFile ∈ [lit "/tar", lit "/rat"],
      ((simulate 1 15 (unpackTar twoOrders tarFile (containSite.path []))
        twoOrdersWorld).bind fun x => result x.1) = some (.ok ()) := by decide +kernel
  have hrun : ∀ tarFile ∈ [lit "/tar", lit "/rat"],
      ∃ w, Unpacks 1 twoOrders tarFile containSite twoOrdersWorld (.ok ()) w := by
    intro tarFile hmem
    obtain ⟨⟨p, w⟩, hsim, hr⟩ := Option.bind_eq_some_iff.mp (hreturns tarFile hmem)
    have hp : p = .ret (.ok ()) := result_eq_some hr
    rw [hp] at hsim
    exact ⟨w, _, simulate_sound hsim⟩
  obtain ⟨w₁, hrun₁⟩ := hrun (lit "/tar") (by simp)
  obtain ⟨w₂, hrun₂⟩ := hrun (lit "/rat") (by simp)
  have h := (unpackTar_perm 1 containSite twoOrdersWorld twoOrders (lit "/tar") (lit "/rat")
    (twoOrders [1]).entries (twoOrders [2]).entries (.swap _ _ _) (by decide)
    (twoOrdersWorld_unpackable (by decide) rfl (by decide))
    (twoOrdersWorld_unpackable (by decide) rfl (by decide))).2.2 _ _ _ _ hrun₁ hrun₂
  rcases h with ⟨-, -, hsame⟩ | ⟨⟨e, he⟩, -⟩
  · exact ⟨w₁, w₂, hrun₁, hrun₂, (hsame _ (by decide)).symm⟩
  · cases he

end BuilderShim.Fileutils
