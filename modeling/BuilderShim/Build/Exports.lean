/-
  Build/Exports.lean --- the exports of a build (pkg/build/build.go).

  The output specifications of a request are parsed and given destinations: a
  writer for an image or a tar file, a directory for local files.  One writer is
  made for the whole list and one directory is named by the build alone, so the
  destinations of two exports are apart only if their types tell them apart.
-/
import BuilderShim.GoLib.Csv
import BuilderShim.GoLib.Filepath
import BuilderShim.GoLib.Os
import BuilderShim.GoLib.Strings

set_option autoImplicit false

namespace BuilderShim.Build

open BuilderShim.Filepath
open BuilderShim.Posix

/-! ## Parsing -/

/-- The types that are supported. -/
inductive Exporter where
  | oci
  | tar
  | local_
  deriving DecidableEq, Repr

def Exporter.ofType (type : Bytes) : Option Exporter :=
  if type = lit "oci" then some .oci
  else if type = lit "tar" then some .tar
  else if type = lit "local" then some .local_
  else none

/-- A `map[string]string`. -/
abbrev Attrs : Type := Bytes → Option Bytes

/-- `wrappedWriteCloser`: a temporary file, and where it is copied to in the end. -/
structure WrappedWriteCloser where
  f : Fd
  dest : Bytes
  deriving DecidableEq, Repr

/-- `client.ExportEntry`.  `Output` is a function that returns the same writer each time. -/
structure ExportEntry where
  type : Exporter
  attrs : Attrs
  output : Option (Option WrappedWriteCloser)
  outputDir : Bytes

inductive ParseError where
  /-- `failed to parse CSV` -/
  | csv (e : Csv.Error)
  /-- `invalid field format` -/
  | field (field : Bytes)
  /-- `output type is required` -/
  | noType
  /-- `unsupported output type` -/
  | unsupported (type : Bytes)

/-- The loop over the fields of one specification. -/
def parseFields (lowerUnicode : Bytes → Bytes) :
    Bytes → Attrs → List Bytes → Except ParseError (Bytes × Attrs)
  | type, attrs, [] => .ok (type, attrs)
  | type, attrs, field :: fields =>
      match Strings.cut 61 field with
      | none => .error (.field field)
      | some (key, value) =>
          let key := Strings.toLower lowerUnicode (Strings.trimSpace key)
          let value := Strings.trimSpace value
          if key = lit "type" then parseFields lowerUnicode value attrs fields
          else parseFields lowerUnicode type (Function.update attrs key (some value)) fields

def parseOutputCSV (lowerUnicode : Bytes → Bytes) (output : Bytes) :
    Except ParseError ExportEntry :=
  match Csv.fields output with
  | .error e => .error (.csv e)
  | .ok fields =>
      match parseFields lowerUnicode [] (fun _ => none) fields with
      | .error e => .error e
      | .ok (type, attrs) =>
          if type = [] then .error .noType
          else
            match Exporter.ofType type with
            | none => .error (.unsupported type)
            | some exporter => .ok ⟨exporter, attrs, none, []⟩

def parseOutput (lowerUnicode : Bytes → Bytes) : List Bytes → Except ParseError (List ExportEntry)
  | [] => .ok []
  | output :: outputs =>
      match parseOutputCSV lowerUnicode output with
      | .error e => .error e
      | .ok entry =>
          match parseOutput lowerUnicode outputs with
          | .error e => .error e
          | .ok entries => .ok (entry :: entries)

/-! ## Destinations -/

/-- The options that decide about the exports. -/
structure BOpts where
  check : Bool
  outputs : List Bytes
  buildID : Bytes
  tag : Bytes

/-- What the machine answers: the temporary file, and each making of a directory. -/
structure Machine where
  createTemp : Except Errno Fd
  mkdirAll : Nat → Except Errno Unit

inductive Error where
  | parse (e : ParseError)
  | sys (e : Errno)

def globalExportPath : Bytes := lit "/var/lib/container-builder-shim/exports"

/-- The file of every export that is not local; joining in two steps cleans no further. -/
def outTar (buildID : Bytes) : Bytes := join (join globalExportPath buildID) (lit "out.tar")

/-- The directory of every local export. -/
def localDest (buildID : Bytes) : Bytes := join (join globalExportPath buildID) (lit "local")

def imageNameAnnotation : Bytes :=
  lit "annotation-index-descriptor.com.apple.containerization.image.name"

def exportWriter (m : Machine) (buildID : Bytes) :
    List ExportEntry → Except Error (Option WrappedWriteCloser)
  | [] => .ok none
  | entry :: entries =>
      if entry.type = .local_ then exportWriter m buildID entries
      else
        match m.createTemp with
        | .error e => .error (.sys e)
        | .ok file => .ok (some ⟨file, outTar buildID⟩)

def setDefault (key value : Bytes) (attrs : Attrs) : Attrs :=
  if attrs key = none then Function.update attrs key (some value) else attrs

def setDefaultExportAttributes (attrs : Attrs) (tag : Bytes) : Attrs :=
  setDefault imageNameAnnotation tag (setDefault (lit "name") tag attrs)

/-- `configureExport`; `made` is what making the directory answers. -/
def configureExport (entry : ExportEntry) (opts : BOpts) (writer : Option WrappedWriteCloser)
    (made : Except Errno Unit) : Except Error ExportEntry :=
  if entry.type = .local_ then
    match made with
    | .error e => .error (.sys e)
    | .ok () =>
        .ok { entry with
          outputDir := if entry.outputDir = [] then localDest opts.buildID else entry.outputDir
          attrs := setDefaultExportAttributes
            (Function.update entry.attrs (lit "dest") (some (localDest opts.buildID))) opts.tag }
  else
    .ok { entry with
      output := some writer
      attrs := setDefaultExportAttributes
        (Function.update entry.attrs (lit "output") (some (outTar opts.buildID))) opts.tag }

/-- The loop of `configuredExports`; `i` counts the directories made. -/
def configureAll (m : Machine) (opts : BOpts) (writer : Option WrappedWriteCloser) :
    Nat → List ExportEntry → Except Error (List ExportEntry)
  | _, [] => .ok []
  | i, entry :: entries =>
      match configureExport entry opts writer (m.mkdirAll i) with
      | .error e => .error e
      | .ok configured =>
          match configureAll m opts writer (i + 1) entries with
          | .error e => .error e
          | .ok rest => .ok (configured :: rest)

/-- Without outputs the image is exported. -/
def orDefault : List ExportEntry → List ExportEntry
  | [] => [⟨.oci, fun _ => none, none, []⟩]
  | entries => entries

def configuredExports (lowerUnicode : Bytes → Bytes) (m : Machine) (opts : BOpts) :
    Except Error (List ExportEntry) :=
  if opts.check then .ok []
  else
    match parseOutput lowerUnicode opts.outputs with
    | .error e => .error (.parse e)
    | .ok exports =>
        let exports := orDefault exports
        match exportWriter m opts.buildID exports with
        | .error e => .error e
        | .ok writer => configureAll m opts writer 0 exports

/-! ## Sinks -/

/-- Two exports do not write to the same place. -/
structure Apart (a b : ExportEntry) : Prop where
  writer : a.type ≠ .local_ → b.type ≠ .local_ → a.output ≠ b.output
  outTar : a.type ≠ .local_ → b.type ≠ .local_ → a.attrs (lit "output") ≠ b.attrs (lit "output")
  directory : a.type = .local_ → b.type = .local_ → a.outputDir ≠ b.outputDir

theorem parseOutputCSV_outputDir {lowerUnicode : Bytes → Bytes} {output : Bytes}
    {entry : ExportEntry} (h : parseOutputCSV lowerUnicode output = .ok entry) :
    entry.outputDir = [] := by
  unfold parseOutputCSV at h
  split at h
  · cases h
  split at h
  · cases h
  split at h
  · cases h
  split at h
  · cases h
  · cases h
    rfl

variable {entries configured : List ExportEntry} {opts : BOpts} {writer : Option WrappedWriteCloser}

/-- A parsed entry names no directory of its own. -/
theorem parseOutput_outputDir {lowerUnicode : Bytes → Bytes} {outputs : List Bytes}
    (h : parseOutput lowerUnicode outputs = .ok entries) :
    ∀ entry ∈ entries, entry.outputDir = [] := by
  induction outputs generalizing entries with
  | nil =>
      cases h
      exact List.forall_mem_nil _
  | cons output outputs ih =>
      unfold parseOutput at h
      split at h
      · cases h
      rename_i entry hentry
      split at h
      · cases h
      rename_i rest hrest
      cases h
      exact List.forall_mem_cons.mpr ⟨parseOutputCSV_outputDir hentry, ih hrest⟩

theorem setDefault_other {key value k : Bytes} {attrs : Attrs} (hk : k ≠ key) :
    setDefault key value attrs k = attrs k := by
  unfold setDefault
  split
  · exact Function.update_of_ne hk _ _
  · rfl

/-- What an entry is configured to. -/
structure Configured (opts : BOpts) (writer : Option WrappedWriteCloser)
    (entry configured : ExportEntry) :
    Prop where
  type : configured.type = entry.type
  output : entry.type ≠ .local_ → configured.output = some writer
  outTar : entry.type ≠ .local_ → configured.attrs (lit "output") = some (Build.outTar opts.buildID)
  outputDir : entry.type = .local_ → configured.outputDir = localDest opts.buildID

theorem configureExport_configured {entry configured : ExportEntry} {made : Except Errno Unit}
    (hdir : entry.outputDir = []) (h : configureExport entry opts writer made = .ok configured) :
    Configured opts writer entry configured := by
  unfold configureExport at h
  split at h
  · rename_i hlocal
    split at h
    · cases h
    · cases h
      exact ⟨rfl, fun hne => absurd hlocal hne, fun hne => absurd hlocal hne, fun _ => rfl⟩
  · rename_i hlocal
    cases h
    refine ⟨rfl, fun _ => rfl, fun _ => ?_, fun h => absurd h hlocal⟩
    simp only [setDefaultExportAttributes]
    rw [setDefault_other (by decide), setDefault_other (by decide), Function.update_self]

theorem configureAll_configured {m : Machine} {i : Nat}
    (hdir : ∀ entry ∈ entries, entry.outputDir = [])
    (h : configureAll m opts writer i entries = .ok configured) :
    List.Forall₂ (Configured opts writer) entries configured := by
  induction entries generalizing i configured with
  | nil =>
      cases h
      exact .nil
  | cons entry entries ih =>
      obtain ⟨hentry, hentries⟩ := List.forall_mem_cons.mp hdir
      unfold configureAll at h
      split at h
      · cases h
      rename_i c hc
      split at h
      · cases h
      rename_i rest hrest
      cases h
      exact .cons (configureExport_configured hentry hc) (ih hentries hrest)

/-- Entries of one kind get one destination, and those of different kinds different ones. -/
theorem Configured.apart_iff {a b a' b' : ExportEntry} (ha : Configured opts writer a a')
    (hb : Configured opts writer b b') :
    Apart a' b' ↔ ¬ (a.type = .local_ ↔ b.type = .local_) := by
  constructor
  · intro h hsame
    by_cases hlocal : a.type = .local_
    · have hlocal' := hsame.mp hlocal
      exact h.directory (ha.type.trans hlocal) (hb.type.trans hlocal')
        ((ha.outputDir hlocal).trans (hb.outputDir hlocal').symm)
    · have hlocal' : b.type ≠ .local_ := fun hb' => hlocal (hsame.mpr hb')
      exact h.writer (ha.type ▸ hlocal) (hb.type ▸ hlocal')
        ((ha.output hlocal).trans (hb.output hlocal').symm)
  · intro hne
    refine ⟨fun ha' hb' => absurd ?_ hne, fun ha' hb' => absurd ?_ hne,
      fun ha' hb' => absurd ?_ hne⟩
    · rw [ha.type] at ha'
      rw [hb.type] at hb'
      exact iff_of_false ha' hb'
    · rw [ha.type] at ha'
      rw [hb.type] at hb'
      exact iff_of_false ha' hb'
    · rw [ha.type] at ha'
      rw [hb.type] at hb'
      exact iff_of_true ha' hb'

theorem Configured.forall_apart_iff {a a' : ExportEntry} (ha : Configured opts writer a a')
    (h : List.Forall₂ (Configured opts writer) entries configured) :
    (∀ b ∈ configured, Apart a' b) ↔
      ∀ b ∈ entries, ¬ (a.type = .local_ ↔ b.type = .local_) := by
  induction h with
  | nil => simp
  | cons hb _ ih => rw [List.forall_mem_cons, List.forall_mem_cons, ih, ha.apart_iff hb]

theorem Configured.pairwise_iff (h : List.Forall₂ (Configured opts writer) entries configured) :
    configured.Pairwise Apart ↔
      entries.Pairwise fun a b => ¬ (a.type = .local_ ↔ b.type = .local_) := by
  induction h with
  | nil => simp
  | cons ha hrest ih => rw [List.pairwise_cons, List.pairwise_cons, ih, ha.forall_apart_iff hrest]

/-- At most one entry is local and at most one is not. -/
def OneOfAKind (entries : List ExportEntry) : Prop :=
  (entries.filter fun entry => entry.type = .local_).length ≤ 1 ∧
    (entries.filter fun entry => entry.type ≠ .local_).length ≤ 1

theorem pairwise_iff_oneOfAKind (entries : List ExportEntry) :
    (entries.Pairwise fun a b => ¬ (a.type = .local_ ↔ b.type = .local_)) ↔
      OneOfAKind entries := by
  have hlength : ∀ l : List ExportEntry, l.Pairwise (fun _ _ => False) ↔ l.length ≤ 1 := by
    intro l
    cases l with
    | nil => simp
    | cons a l =>
        cases l with
        | nil => simp
        | cons b l =>
            refine iff_of_false (fun h => ?_) (by simp)
            exact (List.pairwise_cons.mp h).1 b List.mem_cons_self
  unfold OneOfAKind
  rw [← hlength, ← hlength, List.pairwise_filter, List.pairwise_filter, ← List.pairwise_and_iff]
  refine List.Pairwise.iff fun a b => ?_
  simp only [decide_eq_true_eq]
  tauto

theorem oneOfAKind_orDefault (entries : List ExportEntry) :
    OneOfAKind (orDefault entries) ↔ OneOfAKind entries := by
  cases entries with
  | nil => simp [OneOfAKind, orDefault]
  | cons entry entries => rfl

/-- The exports that are returned are pairwise apart if and only if at most one of the output
specifications is local and at most one is not (and always when only checks are run). -/
theorem configuredExports_apart_iff (lowerUnicode : Bytes → Bytes) (m : Machine) (opts : BOpts)
    (exports : List ExportEntry) (h : configuredExports lowerUnicode m opts = .ok exports) :
    exports.Pairwise Apart ↔
      opts.check = true ∨ ∃ entries, parseOutput lowerUnicode opts.outputs = .ok entries ∧
        OneOfAKind entries := by
  unfold configuredExports at h
  split at h
  · rename_i hcheck
    cases h
    exact iff_of_true .nil (.inl hcheck)
  rename_i hcheck
  split at h
  · cases h
  rename_i entries hentries
  dsimp only at h
  split at h
  · cases h
  rename_i writer hwriter
  have hdir : ∀ entry ∈ orDefault entries, entry.outputDir = [] := by
    cases hnil : entries with
    | nil => simp [orDefault]
    | cons entry rest =>
        rw [hnil] at hentries
        exact parseOutput_outputDir hentries
  rw [Configured.pairwise_iff (configureAll_configured hdir h), pairwise_iff_oneOfAKind,
    oneOfAKind_orDefault]
  constructor
  · intro hone
    exact .inr ⟨entries, hentries, hone⟩
  · rintro (hc | ⟨entries', hentries', hone⟩)
    · exact absurd hc hcheck
    · rw [hentries] at hentries'
      cases hentries'
      exact hone

/-- An image and local files are apart. -/
theorem configuredExports_apart_two :
    ∃ a b, configuredExports id ⟨.ok 3, fun _ => .ok ()⟩
        ⟨false, [lit "type=oci", lit "type=local"], lit "id", lit "tag"⟩ = .ok [a, b] ∧
      [a, b].Pairwise Apart := by
  refine ⟨_, _, rfl, ?_⟩
  exact (configuredExports_apart_iff id ⟨.ok 3, fun _ => .ok ()⟩
    ⟨false, [lit "type=oci", lit "type=local"], lit "id", lit "tag"⟩ _ rfl).mpr
    (.inr ⟨_, rfl, by decide, by decide⟩)

/-! ## What sharing a writer does -/

/-- The files the writers work on: the bytes of a temporary file while it is open, and the
files they are copied to. -/
structure Disk where
  temp : Fd → Option Bytes
  file : Bytes → Option Bytes

/-- `wrappedWriteCloser.Write`, on a disk that does not fail; a closed file is not written. -/
def WrappedWriteCloser.write (w : WrappedWriteCloser) (p : Bytes) (d : Disk) : Option Nat × Disk :=
  match d.temp w.f with
  | none => (none, d)
  | some data => (some p.length, { d with temp := Function.update d.temp w.f (some (data ++ p)) })

/-- `wrappedWriteCloser.Close`: the contents are copied, the temporary file is closed and
removed. -/
def WrappedWriteCloser.close (w : WrappedWriteCloser) (d : Disk) : Bool × Disk :=
  match d.temp w.f with
  | none => (false, d)
  | some data => (true, ⟨Function.update d.temp w.f none,
    Function.update d.file w.dest (some data)⟩)

/-- What two exports write through one writer is in one file, in the order they happen to
write; and the second one cannot close it. -/
theorem WrappedWriteCloser.mixes (w : WrappedWriteCloser) (d : Disk) (p q : Bytes)
    (hopen : d.temp w.f = some []) :
    let d' := (w.write q (w.write p d).2).2
    (w.close d').2.file w.dest = some (p ++ q) ∧ (w.close (w.close d').2).1 = false := by
  simp [write, close, hopen]

/-- An image and a tar file are asked for. -/
theorem exports_share_writer :
    ∃ a b w, configuredExports id ⟨.ok 3, fun _ => .ok ()⟩
        ⟨false, [lit "type=oci", lit "type=tar"], lit "id", lit "tag"⟩ = .ok [a, b] ∧
      a.output = some (some w) ∧ b.output = some (some w) ∧ ¬ Apart a b := by
  refine ⟨_, _, ⟨3, outTar (lit "id")⟩, rfl, rfl, rfl, fun h => ?_⟩
  exact h.writer nofun nofun rfl

end BuilderShim.Build
