/-
  Fileutils/Unpack.lean --- `unpackTar` and its helpers (pkg/fileutils/tarxfer.go).

  `archive/tar` is outside the repository: an `Archive` is what its reader makes
  of the bytes of a file, the entries `Next` returns in order and the error that
  ends them, if it is not `io.EOF`.  Which bytes give which archive is a
  parameter of everything below.
-/
import BuilderShim.GoLib.Os

set_option autoImplicit false

namespace BuilderShim.Fileutils

open BuilderShim.Filepath
open BuilderShim.Foundation
open BuilderShim.Posix

/-- `DockerfileStaging`. -/
def dockerfileStaging : Bytes := lit ".com.apple.container"

def cacheCompletionMarker : Bytes := lit ".container-builder-shim-complete"

def cacheCompletionValue : Bytes := lit "complete\n"

/-- The type flags `unpackTar` tells apart. -/
inductive TypeFlag where
  | dir
  | reg
  | symlink
  | link
  | other (flag : UInt8)
  deriving DecidableEq, Repr

/-- A `tar.Header`, with what reading the entry's contents gives. -/
structure TarEntry where
  name : Bytes
  typeflag : TypeFlag
  linkname : Bytes
  mode : Nat
  /-- the pieces `io.Copy` reads and writes one after the other -/
  body : List Bytes
  /-- the error that ends the contents, if they do not end properly -/
  bodyErr : Option Err
  deriving DecidableEq, Repr

structure Archive where
  entries : List TarEntry
  failure : Option Err
  deriving DecidableEq, Repr

def tarTarget (dest name : Bytes) : Except Err Bytes :=
  let cleaned := clean name
  if cleaned = dot ∨ isLocal cleaned = false then
    .error (.text (lit "invalid tar path: " ++ name))
  else if cleaned = dockerfileStaging ∨ (dockerfileStaging ++ [slash]).isPrefixOf cleaned = true ∨
      cleaned = cacheCompletionMarker then
    .error (.text (lit "cannot use reserved path: " ++ name))
  else .ok (join dest cleaned)

/-- The loop of `ensurePathParent` over the components of the parent. -/
def ensureComponents : Bytes → List Bytes → Sys (Except Err Unit)
  | _, [] => pure (.ok ())
  | current, component :: components => do
      if component = dot then ensureComponents current components
      else
        let current := join current component
        match ← Sys.lstat current with
        | .error .noent =>
            match ← Sys.mkdir current 0o755 with
            | .error e => return .error (.sys e)
            | .ok () => ensureComponents current components
        | .error e => return .error (.sys e)
        | .ok info =>
            if info.type = .symlink ∨ info.type ≠ .dir then
              return .error (.text (lit "tar path crosses a non-directory: " ++ current))
            else ensureComponents current components

def ensurePathParent (root target : Bytes) : Sys (Except Err Unit) :=
  match rel root target with
  | none => pure (.error (.text (lit "invalid tar target: " ++ target)))
  | some relative =>
      if isLocal relative = false then
        pure (.error (.text (lit "invalid tar target: " ++ target)))
      else ensureComponents root (split (dir relative))

def ensureDirectory (root target : Bytes) : Sys (Except Err Unit) := do
  match ← ensurePathParent root target with
  | .error e => return .error e
  | .ok () =>
      match ← Sys.lstat target with
      | .error .noent => return (← Sys.mkdir target 0o755).mapError .sys
      | .error e => return .error (.sys e)
      | .ok info =>
          if info.type = .symlink ∨ info.type ≠ .dir then
            return .error (.text (lit "tar directory conflicts with existing path: " ++ target))
          else return .ok ()

def ensureNewPath (root target : Bytes) : Sys (Except Err Unit) := do
  match ← ensurePathParent root target with
  | .error e => return .error e
  | .ok () =>
      match ← Sys.lstat target with
      | .ok _ => return .error (.text (lit "tar path already exists: " ++ target))
      | .error .noent => return .ok ()
      | .error e => return .error (.sys e)

/-- `io.Copy(f, tr)` into a file just created. -/
def copyBody (fd : Fd) (bodyErr : Option Err) : List Bytes → Sys (Except Err Unit)
  | [] =>
      match bodyErr with
      | some e => pure (.error e)
      | none => pure (.ok ())
  | piece :: pieces => do
      match ← Sys.write fd piece with
      | .error e => return .error (.sys e)
      | .ok () => copyBody fd bodyErr pieces

/-- The case `tar.TypeReg`. -/
def unpackFile (dest target : Bytes) (hdr : TarEntry) : Sys (Except Err Unit) := do
  match ← ensureNewPath dest target with
  | .error e => return .error e
  | .ok () =>
      match ← Sys.openExcl target (hdr.mode &&& 0o777) with
      | .error e => return .error (.sys e)
      | .ok fd =>
          match ← copyBody fd hdr.bodyErr hdr.body with
          | .error e =>
              let _ ← Sys.close fd
              return .error e
          | .ok () => return (← Sys.close fd).mapError .sys

/-- The case `tar.TypeSymlink`. -/
def unpackSymlink (dest target : Bytes) (hdr : TarEntry) : Sys (Except Err Unit) := do
  match ← ensureNewPath dest target with
  | .error e => return .error e
  | .ok () => return (← Sys.symlink hdr.linkname target).mapError .sys

/-- The case `tar.TypeLink`. -/
def unpackLink (dest target : Bytes) (hdr : TarEntry) : Sys (Except Err Unit) := do
  match tarTarget dest hdr.linkname with
  | .error e => return .error e
  | .ok linkTarget =>
      match ← ensurePathParent dest linkTarget with
      | .error e => return .error e
      | .ok () =>
          match ← Sys.lstat linkTarget with
          | .error e => return .error (.sys e)
          | .ok info =>
              if info.type ≠ .regular then
                return .error (.text (lit "hard link target is not a regular file: " ++
                  hdr.linkname))
              else
                match ← ensureNewPath dest target with
                | .error e => return .error e
                | .ok () => return (← Sys.link linkTarget target).mapError .sys

/-- One round of the loop of `unpackTar`, after `Next`. -/
def unpackEntry (dest : Bytes) (hdr : TarEntry) : Sys (Except Err Unit) :=
  match tarTarget dest hdr.name with
  | .error e => pure (.error e)
  | .ok target =>
      match hdr.typeflag with
      | .dir => ensureDirectory dest target
      | .reg => unpackFile dest target hdr
      | .symlink => unpackSymlink dest target hdr
      | .link => unpackLink dest target hdr
      | .other _ => pure (.error (.text (lit "unsupported tar entry type for " ++ hdr.name)))

/-- The loop of `unpackTar`: the context is checked, then the next header read. -/
def unpackEntries (dest : Bytes) (failure : Option Err) : List TarEntry → Sys (Except Err Unit)
  | [] => do
      match ← Sys.ctxErr with
      | some e => return .error (.sys e)
      | none =>
          match ← Sys.readNext with
          | .error e => return .error (.sys e)
          | .ok () =>
              match failure with
              | some e => return .error e
              | none => return .ok ()
  | hdr :: entries => do
      match ← Sys.ctxErr with
      | some e => return .error (.sys e)
      | none =>
          match ← Sys.readNext with
          | .error e => return .error (.sys e)
          | .ok () =>
              match ← unpackEntry dest hdr with
              | .error e => return .error e
              | .ok () => unpackEntries dest failure entries

def unpackTar (untar : Bytes → Archive) (tarFile dest : Bytes) : Sys (Except Err Unit) := do
  match ← Os.mkdirAll dest 0o755 with
  | .error e => return .error (.sys e)
  | .ok () =>
      match ← Sys.readFile tarFile with
      | .error e => return .error (.sys e)
      | .ok data => unpackEntries dest (untar data).failure (untar data).entries

end BuilderShim.Fileutils
