/-
  Fileutils/Contain.lean --- unpacking stays in its destination.
-/
import BuilderShim.Posix.Simulate
import BuilderShim.Fileutils.UnpackSpec

set_option autoImplicit false

namespace BuilderShim.Fileutils

open BuilderShim.Filepath
open BuilderShim.Foundation
open BuilderShim.Posix

/-- A region that the others leave alone is guarded by confinement itself. -/
theorem guarded_quiet (s : Site) : Guarded s (Quiet s) (Confined s.loc) fun _ => True where
  quiet _ _ _ h := ⟨h, trivial⟩
  refl := Confined.refl s.loc
  allow _ _ _ h := ⟨h, trivial⟩

/-- An empty directory is a region. -/
theorem holds_of_empty {s : Site} {w : World} (hleads : w.fs.At s.rooted s.parts s.loc)
    (hempty : ∀ rel, rel ≠ [] → w.fs.node (s.loc ++ rel) = none) (humask : w.umask = s.umask) :
    Holds s (w.fs.view s.loc) w where
  leads := hleads
  view _ := rfl
  closed := by
    intro rel q i ⟨n, hn, hk⟩
    by_cases hrel : rel = []
    · obtain ⟨n', hn', hdir⟩ := FS.isDir_iff.mp hleads.isDir
      rw [hrel, List.append_nil, hn'] at hn
      cases hn
      simp [Node.isDir, hk] at hdir
    · rw [hempty rel hrel] at hn
      cases hn
  umask_eq := humask

/-- Whatever the archive says and wherever it stops, each step of `unpackTar` is
confined to the empty directory it was given: nothing outside changes, every new
entry is strictly below the destination with real directories all the way down to
it, and a hard link is to a regular file strictly below. -/
theorem unpackTar_confined (m : Mode) (tid : Nat) (untar : Bytes → Archive) (tarFile : Bytes)
    (s : Site) {w₀ w w' : World} {n : Nat} {p p' : Sys (Except Err Unit)}
    (hleads : w₀.fs.At s.rooted s.parts s.loc)
    (hempty : ∀ rel, rel ≠ [] → w₀.fs.node (s.loc ++ rel) = none) (humask : w₀.umask = s.umask)
    (hrun : Run (exec m tid) (Quiet s) n (unpackTar untar tarFile (s.path [])) w₀ p w)
    (hstep : Step (exec m tid) p w p' w') :
    Confined s.loc w w' ∧ ∀ q, ¬ Below s.loc q →
      w'.fs.node q = w.fs.node q ∧
        (w'.fs.node q).map w'.fs.content = (w.fs.node q).map w.fs.content := by
  have hroot : TreeMap.isDir (w₀.fs.view s.loc) [] :=
    FS.isDir_iff_view.mp (by simpa using hleads.isDir)
  have htriple := unpackTar_spec (m := m) tid (guarded_quiet s) hleads.parts_clean hroot
    untar tarFile (F := fun _ => True) fun _ _ _ _ _ => trivial
  have hsafe := htriple w₀ ⟨trivial, holds_of_empty hleads hempty humask⟩
  have hconf : Confined s.loc w w' := (hsafe n p w hrun).1 p' w' hstep
  exact ⟨hconf, fun q hq => hconf.outside hq⟩

/-- A machine with an empty directory `/dest` and an archive `/tar`. -/
def containWorld : World where
  fs := FS.ofList
    [([], ⟨.dir 0o755, 0⟩), ([lit "dest"], ⟨.dir 0o755, 0⟩), ([lit "tar"], ⟨.file 0, 0⟩)]
    [⟨[], 0o600⟩] [] (by decide)
  locks := fun _ => none
  umask := 0o022

def containSite : Site := ⟨true, [lit "dest"], [lit "dest"], 0o022⟩

/-- An archive with the directory `a/b` in it. -/
def containArchive : Archive := ⟨[⟨lit "a/b", .dir, [], 0, [], none⟩], none⟩

theorem containSite_at :
    containWorld.fs.At containSite.rooted containSite.parts containSite.loc where
  parts_clean := cleanParts_of_names (by decide)
  resolve := by decide
  isDir := by decide

theorem containSite_empty (rel : Loc) (h : rel ≠ []) :
    containWorld.fs.node (containSite.loc ++ rel) = none := by
  obtain ⟨c, rest, rfl⟩ := List.exists_cons_of_ne_nil h
  rfl

/-- The sixth step of unpacking it creates `/dest/a`, and is confined to `/dest`. -/
theorem unpackTar_confined_mkdir :
    ∃ p p' w w', Run (exec .storm 1) (Quiet containSite) 5
        (unpackTar (fun _ => containArchive) (lit "/tar") (containSite.path [])) containWorld p w ∧
      Step (exec .storm 1) p w p' w' ∧ w.fs.node [lit "dest", lit "a"] = none ∧
      w'.fs.node [lit "dest", lit "a"] = some ⟨.dir 0o755, 1⟩ ∧ Confined [lit "dest"] w w' := by
  have hafter : ((simulate 1 6 (unpackTar (fun _ => containArchive) (lit "/tar")
      (containSite.path [])) containWorld).map fun x => x.2.fs.node [lit "dest", lit "a"]) =
      some (some ⟨.dir 0o755, 1⟩) := by decide +kernel
  have hbefore : ((simulate 1 5 (unpackTar (fun _ => containArchive) (lit "/tar")
      (containSite.path [])) containWorld).map fun x => x.2.fs.node [lit "dest", lit "a"]) =
      some none := by decide +kernel
  obtain ⟨⟨p', w'⟩, hrun', hnode'⟩ := Option.map_eq_some_iff.mp hafter
  obtain ⟨p, w, hrun, hstep⟩ := simulate_last (m := .storm) hrun'
  rw [hrun] at hbefore
  refine ⟨p, p', w, w', simulate_sound hrun, hstep, Option.some.inj hbefore, hnode', ?_⟩
  exact (unpackTar_confined .storm 1 (fun _ => containArchive) (lit "/tar") containSite
    containSite_at containSite_empty rfl (simulate_sound hrun) hstep).1

end BuilderShim.Fileutils
