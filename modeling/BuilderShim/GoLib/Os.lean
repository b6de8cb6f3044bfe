/-
  GoLib/Os.lean --- Go errors, and the functions of package `os` that make more
  than one system call: `MkdirAll`, `RemoveAll` and `WriteFile`.
-/
import BuilderShim.Posix.Syscall

set_option autoImplicit false

namespace BuilderShim

open BuilderShim.Filepath
open BuilderShim.Foundation
open BuilderShim.Posix

/-- A Go error.  The sentinels the program compares with have a constructor of
their own; an error made by `fmt.Errorf` is its text. -/
inductive Err where
  /-- a `*PathError` or a plain error number -/
  | sys (errno : Errno)
  /-- `io.EOF` -/
  | eof
  /-- `ErrInvalidContextDigest` -/
  | invalidContextDigest
  | text (message : Bytes)
  deriving DecidableEq, Repr

namespace Os

/-- `path` up to the separator before its last element, without that separator
unless it is the root. -/
def parentPath (path : Bytes) : Bytes :=
  let front := (path.reverse.dropWhile (· == slash)).dropWhile (· != slash)
  if front = [] then []
  else if front.dropWhile (· == slash) = [] then [slash]
  else (front.dropWhile (· == slash)).reverse

/-- The last step of `os.MkdirAll`: another process may create the directory at the
same time. -/
def mkdirLast (path : Bytes) (perm : Nat) : Sys (Except Errno Unit) := do
  match ← Sys.mkdir path perm with
  | .ok () => return .ok ()
  | .error e =>
      match ← Sys.lstat path with
      | .ok info => if info.type = .dir then return .ok () else return .error e
      | .error _ => return .error e

/-- `os.MkdirAll`; a path has no more parents than `fuel`. -/
def mkdirAllFrom : Nat → Bytes → Nat → Sys (Except Errno Unit)
  | 0, path, perm => do
      match ← Sys.stat path with
      | .ok info => if info.type = .dir then return .ok () else return .error .notdir
      | .error _ => mkdirLast path perm
  | fuel + 1, path, perm => do
      match ← Sys.stat path with
      | .ok info => if info.type = .dir then return .ok () else return .error .notdir
      | .error _ =>
          if parentPath path = [] then mkdirLast path perm
          else
            match ← mkdirAllFrom fuel (parentPath path) perm with
            | .error e => return .error e
            | .ok () => mkdirLast path perm

def mkdirAll (path : Bytes) (perm : Nat) : Sys (Except Errno Unit) :=
  mkdirAllFrom path.length path perm

/-- The path of what is at `rel` below `path`. -/
def below (path : Bytes) (rel : Loc) : Bytes :=
  if rel = [] then path else path ++ slash :: joinSlash rel

/-- Remove what is left of a listed tree; the first failure is reported, and the
rest is removed all the same. -/
def removePlan (path : Bytes) : List Loc → Sys (Except Errno Unit)
  | [] => pure (.ok ())
  | rel :: plan => do
      let r ← Sys.remove (below path rel)
      let rest ← removePlan path plan
      match r with
      | .ok () => return rest
      | .error .noent => return rest
      | .error e => return .error e

/-- `os.RemoveAll`. -/
def removeAll (path : Bytes) : Sys (Except Errno Unit) := do
  match ← Sys.remove path with
  | .ok () => return .ok ()
  | .error .noent => return .ok ()
  | .error _ =>
      match ← Sys.listTree path with
      | .error e => return .error e
      | .ok plan => removePlan path plan

/-- `os.WriteFile`. -/
def writeFile (path data : Bytes) (perm : Nat) : Sys (Except Errno Unit) := do
  match ← Sys.openTrunc path perm with
  | .error e => return .error e
  | .ok fd =>
      let written ← Sys.write fd data
      let closed ← Sys.close fd
      match written with
      | .error e => return .error e
      | .ok () => return closed

end Os

end BuilderShim
