/-
  Posix/Syscall.lean --- the file-system operations a program calls.

  `Nominal` is what each call does when nothing goes wrong on the machine: its
  errors are the ones its arguments and the file system call for.  `Exec` adds,
  for the calls a `Mode` allows it for, failures of another kind (an I/O error,
  no space, an interrupt), which change nothing, except that a failed write may
  have written a part of its data; and a cancelled context.

  A call is one atomic step.  What takes several system calls is written as a
  program over them.
-/
import Mathlib.Data.Nat.Digits.Defs
import BuilderShim.Foundation.Rely
import BuilderShim.Posix.Resolve
import BuilderShim.Posix.Tree

set_option autoImplicit false

namespace BuilderShim.Posix

open BuilderShim.Filepath
open BuilderShim.Foundation

inductive FileType where
  | dir
  | regular
  | symlink
  deriving DecidableEq, Repr

/-- `os.FileInfo`, without times.  The size is meant for regular files. -/
structure FileInfo where
  type : FileType
  perm : Nat
  size : Nat
  deriving DecidableEq, Repr

def Content.info : Content → FileInfo
  | .dir perm => ⟨.dir, perm, 0⟩
  | .file perm data => ⟨.regular, perm, data.length⟩
  | .symlink target => ⟨.symlink, 0o777, target.length⟩

def Node.type (n : Node) : FileType :=
  match n.kind with
  | .dir _ => .dir
  | .file _ => .regular
  | .symlink _ => .symlink

theorem info_type (fs : FS) (n : Node) : (fs.content n).info.type = n.type := by
  unfold FS.content Node.type
  cases n.kind <;> rfl

/-- The permission bits of an entry created with `mode`. -/
def maskPerm (umask mode : Nat) : Nat := mode &&& (0o777 ^^^ (umask &&& 0o777))

/-- The machine the programs share: the file system and the advisory locks, by
the location of the lock file. -/
structure World where
  fs : FS
  locks : Loc → Option Nat
  umask : Nat

namespace World

def setFs (w : World) (fs : FS) : World := { w with fs := fs }

def perm (w : World) (mode : Nat) : Nat := maskPerm w.umask mode

def setLock (w : World) (p : Loc) (holder : Option Nat) : World :=
  { w with locks := fun q => if q = p then holder else w.locks q }

@[simp] theorem setFs_fs (w : World) (fs : FS) : (w.setFs fs).fs = fs := rfl
@[simp] theorem setFs_locks (w : World) (fs : FS) : (w.setFs fs).locks = w.locks := rfl
/-- The kernel takes back the locks of a call that is killed. -/
def releaseLocks (w : World) (tid : Nat) : World :=
  { w with locks := fun q => if w.locks q = some tid then none else w.locks q }

@[simp] theorem setLock_fs (w : World) (p : Loc) (h : Option Nat) : (w.setLock p h).fs = w.fs := rfl

end World

/-- An open regular file is known by its inode. -/
abbrev Fd : Type := Nat

inductive FsOp where
  | lstat (path : Bytes)
  | stat (path : Bytes)
  | mkdir (path : Bytes) (perm : Nat)
  /-- `O_CREATE|O_WRONLY|O_EXCL` -/
  | openExcl (path : Bytes) (perm : Nat)
  /-- `O_CREATE|O_WRONLY|O_TRUNC` -/
  | openTrunc (path : Bytes) (perm : Nat)
  /-- `O_APPEND|O_WRONLY` -/
  | openAppend (path : Bytes)
  /-- open and read to the end -/
  | readFile (path : Bytes)
  /-- go on reading an open file whose bytes `readFile` gave: it may fail -/
  | readNext
  | write (fd : Fd) (data : Bytes)
  | close (fd : Fd)
  | symlink (target path : Bytes)
  | link (old new : Bytes)
  /-- a fresh name `pre`, digits, `suf` in a directory -/
  | createTemp (dir pre suf : Bytes)
  | mkdirTemp (dir pre suf : Bytes)
  /-- the entries at and below a path, entries of a directory before it -/
  | listTree (path : Bytes)
  /-- `unlink` or `rmdir` -/
  | remove (path : Bytes)
  | renameDir (old new : Bytes)
  /-- open or create the lock file and wait for its lock -/
  | tryLock (path : Bytes) (perm : Nat)
  | unlock (lock : Loc)
  /-- a recursive listing for `filepath.Walk` -/
  | snapshot (path : Bytes)
  /-- the context's error, if it is done -/
  | ctxErr
  deriving DecidableEq

def FsOp.Res : FsOp → Type
  | .lstat _ | .stat _ => Except Errno FileInfo
  | .mkdir _ _ | .write _ _ | .close _ | .symlink _ _ | .link _ _ | .remove _
  | .renameDir _ _ | .readNext => Except Errno Unit
  | .openExcl _ _ | .openTrunc _ _ | .openAppend _ => Except Errno Fd
  | .readFile _ => Except Errno Bytes
  | .createTemp _ _ _ => Except Errno (Bytes × Fd)
  | .mkdirTemp _ _ _ => Except Errno Bytes
  | .listTree _ => Except Errno (List Loc)
  | .tryLock _ _ => Except Errno Loc
  | .unlock _ => Unit
  | .snapshot _ => Except Errno Tree
  | .ctxErr => Option Errno

def FsSig : Sig := ⟨FsOp, FsOp.Res⟩

/-- The decimal digits a temporary name is filled with. -/
def digits (n : Nat) : Bytes :=
  if n = 0 then [48] else (Nat.digits 10 n).reverse.map fun k => (48 + k).toUInt8

/-- `os.CreateTemp` and `os.MkdirTemp` join the directory and the name with one
separator and do not clean the result. -/
def tempPath (dir name : Bytes) : Bytes :=
  if dir.getLast? = some slash then dir ++ name else dir ++ slash :: name

namespace FS

def lstat (fs : FS) (path : Bytes) : Except Errno FileInfo :=
  match fs.locate path with
  | .error e => .error e
  | .ok p =>
      match fs.node p with
      | none => .error .noent
      | some n => .ok (fs.content n).info

def stat (fs : FS) (path : Bytes) : Except Errno FileInfo :=
  match fs.resolve path with
  | .error e => .error e
  | .ok p =>
      match fs.node p with
      | none => .error .noent
      | some n => .ok (fs.content n).info

/-- The inode a path leads to, if it is a regular file. -/
def fileAt (fs : FS) (path : Bytes) : Except Errno Fd :=
  match fs.resolve path with
  | .error e => .error e
  | .ok p =>
      match fs.node p with
      | some ⟨.file ino, _⟩ => .ok ino
      | some ⟨.dir _, _⟩ => .error .isdir
      | _ => .error .noent

end FS

/-- Creating an entry where `where_` says: the error of the path, `EEXIST`, or the
file system `made` gives. -/
def Creates {α : Type} (w : World) (where_ : Except Errno Loc) (r : Except Errno α) (w' : World)
    (made : (p : Loc) → w.fs.Vacant p → Except Errno α → World → Prop) : Prop :=
  match where_ with
  | .error e => r = .error e ∧ w' = w
  | .ok p =>
      (w.fs.node p ≠ none ∧ r = .error .exist ∧ w' = w) ∨ ∃ h : w.fs.Vacant p, made p h r w'

/-- Creating an entry under a name nothing has yet. -/
def CreatesFresh {α : Type} (w : World) (where_ : Except Errno Loc) (r : Except Errno α)
    (w' : World) (made : (p : Loc) → w.fs.Vacant p → Except Errno α → World → Prop) : Prop :=
  match where_ with
  | .error e => r = .error e ∧ w' = w
  | .ok p => ∃ h : w.fs.Vacant p, made p h r w'

/-- What the operations do when the machine does not fail; `tid` is the caller. -/
def Nominal (tid : Nat) : Exec FsSig World
  | .lstat path, w, r, w' => r = w.fs.lstat path ∧ w' = w
  | .stat path, w, r, w' => r = w.fs.stat path ∧ w' = w
  | .mkdir path perm, w, r, w' =>
      Creates w (w.fs.locate path) r w' fun p h r w' =>
        r = .ok () ∧ w' = w.setFs (w.fs.add p ⟨.dir (w.perm perm), tid⟩ h (by simp))
  | .openExcl path perm, w, r, w' =>
      Creates w (w.fs.locate path) r w' fun p h r w' =>
        r = .ok w.fs.nextIno ∧ w' = w.setFs (w.fs.addFile p (w.perm perm) tid h)
  | .openTrunc path perm, w, r, w' =>
      match w.fs.openTarget path with
      | .error e => r = .error e ∧ w' = w
      | .ok p =>
          match w.fs.node p with
          | some ⟨.file ino, _⟩ => r = .ok ino ∧ w' = w.setFs (w.fs.setData ino [])
          | some _ => r = .error .isdir ∧ w' = w
          | none => ∃ h : w.fs.Vacant p,
              r = .ok w.fs.nextIno ∧ w' = w.setFs (w.fs.addFile p (w.perm perm) tid h)
  | .openAppend path, w, r, w' => r = w.fs.fileAt path ∧ w' = w
  | .readFile path, w, r, w' =>
      r = (w.fs.fileAt path).map (fun ino => (w.fs.inode ino).data) ∧ w' = w
  | .readNext, w, r, w' => r = .ok () ∧ w' = w
  | .write fd data, w, r, w' =>
      r = .ok () ∧ w' = w.setFs (w.fs.setData fd ((w.fs.inode fd).data ++ data))
  | .close _, w, r, w' => r = .ok () ∧ w' = w
  | .symlink target path, w, r, w' =>
      if target = [] then r = .error .noent ∧ w' = w
      else
        Creates w (w.fs.locate path) r w' fun p h r w' =>
          r = .ok () ∧ w' = w.setFs (w.fs.add p ⟨.symlink target, tid⟩ h (by simp))
  | .link old new, w, r, w' =>
      match w.fs.locate old with
      | .error e => r = .error e ∧ w' = w
      | .ok q =>
          match hn : w.fs.node q with
          | none => r = .error .noent ∧ w' = w
          | some n =>
              if n.isDir then r = .error .perm ∧ w' = w
              else
                Creates w (w.fs.locate new) r w' fun p h r w' =>
                  r = .ok () ∧ w' = w.setFs
                    (w.fs.add p ⟨n.kind, tid⟩ h fun i hi => w.fs.ino_lt q n i hn hi)
  | .createTemp dir pre suf, w, r, w' =>
      ∃ n : Nat, CreatesFresh w (w.fs.locate (tempPath dir (pre ++ digits n ++ suf))) r w'
        fun p h r w' =>
          r = .ok (tempPath dir (pre ++ digits n ++ suf), w.fs.nextIno) ∧
            w' = w.setFs (w.fs.addFile p (w.perm 0o600) tid h)
  | .mkdirTemp dir pre suf, w, r, w' =>
      ∃ n : Nat, CreatesFresh w (w.fs.locate (tempPath dir (pre ++ digits n ++ suf))) r w'
        fun p h r w' =>
          r = .ok (tempPath dir (pre ++ digits n ++ suf)) ∧
            w' = w.setFs (w.fs.add p ⟨.dir (w.perm 0o700), tid⟩ h (by simp))
  | .listTree path, w, r, w' =>
      w' = w ∧
        match w.fs.locate path with
        | .error .noent => r = .ok []
        | .error e => r = .error e
        | .ok p => ∃ plan : List Loc, r = .ok plan ∧
          (∀ rel, rel ∈ plan ↔ w.fs.node (p ++ rel) ≠ none) ∧
            plan.Pairwise fun a b => ¬ a <+: b
  | .remove path, w, r, w' =>
      match w.fs.locate path with
      | .error e => r = .error e ∧ w' = w
      | .ok p =>
          (w.fs.node p = none ∧ r = .error .noent ∧ w' = w) ∨
          (w.fs.node p ≠ none ∧ ¬ w.fs.Removable p ∧ r = .error .notempty ∧ w' = w) ∨
          ∃ h : w.fs.Removable p, w.fs.node p ≠ none ∧ r = .ok () ∧
            w' = w.setFs (w.fs.erase p h)
  | .renameDir old new, w, r, w' =>
      match w.fs.locate old, w.fs.locate new with
      | .ok p, .ok q =>
          (w.fs.isDir p = false ∧ r = .error .notdir ∧ w' = w) ∨
          (w.fs.isDir p = true ∧ ¬ w.fs.Movable p q ∧ r = .error .notempty ∧ w' = w) ∨
          ∃ h : w.fs.Movable p q, r = .ok () ∧ w' = w.setFs (w.fs.move p q h)
      | .error e, _ => r = .error e ∧ w' = w
      | _, .error e => r = .error e ∧ w' = w
  | .tryLock path perm, w, r, w' =>
      match w.fs.openTarget path with
      | .error e => r = .error e ∧ w' = w
      | .ok p =>
          match w.fs.node p with
          | some ⟨.file _, _⟩ =>
              w.locks p = none ∧ r = .ok p ∧ w' = w.setLock p (some tid)
          | some _ => r = .error .isdir ∧ w' = w
          | none => ∃ h : w.fs.Vacant p, w.locks p = none ∧ r = .ok p ∧
              w' = (w.setFs (w.fs.addFile p (w.perm perm) tid h)).setLock p (some tid)
  | .unlock p, w, _, w' =>
      w' = if w.locks p = some tid then w.setLock p none else w
  | .snapshot path, w, r, w' =>
      w' = w ∧
        match w.fs.locate path with
        | .error e => r = .error e
        | .ok p =>
            (w.fs.node p = none ∧ r = .error .noent) ∨ ∃ t, r = .ok t ∧ w.fs.Shows p t
  | .ctxErr, w, r, w' => r = none ∧ w' = w

/-- How an operation the machine fails leaves the world. -/
def Fails (tid : Nat) : Exec FsSig World
  | .lstat _, w, r, w' | .stat _, w, r, w' => (∃ k, r = .error (.other k)) ∧ w' = w
  | .mkdir _ _, w, r, w' | .close _, w, r, w' | .symlink _ _, w, r, w' | .link _ _, w, r, w'
  | .remove _, w, r, w' | .renameDir _ _, w, r, w' | .readNext, w, r, w' =>
      (∃ k, r = .error (.other k)) ∧ w' = w
  | .openExcl _ _, w, r, w' | .openTrunc _ _, w, r, w' | .openAppend _, w, r, w' =>
      (∃ k, r = .error (.other k)) ∧ w' = w
  | .readFile _, w, r, w' => (∃ k, r = .error (.other k)) ∧ w' = w
  | .createTemp _ _ _, w, r, w' => (∃ k, r = .error (.other k)) ∧ w' = w
  | .mkdirTemp _ _ _, w, r, w' => (∃ k, r = .error (.other k)) ∧ w' = w
  | .listTree _, w, r, w' => (∃ k, r = .error (.other k)) ∧ w' = w
  | .snapshot _, w, r, w' => (∃ k, r = .error (.other k)) ∧ w' = w
  | .write fd data, w, r, w' =>
      (∃ k, r = .error (.other k)) ∧ ∃ part, part <+: data ∧
        w' = w.setFs (w.fs.setData fd ((w.fs.inode fd).data ++ part))
  | .tryLock path perm, w, r, w' =>
      (∃ k, r = .error (.other k)) ∧
        (w' = w ∨ ∃ p, w.fs.openTarget path = .ok p ∧ ∃ h : w.fs.Vacant p,
          w' = w.setFs (w.fs.addFile p (w.perm perm) tid h))
  | .unlock _, _, _, _ => False
  | .ctxErr, _, _, _ => False

/-- A cancelled context: seen by a check, and ending the wait for a lock, whose
file may have been created already. -/
def Cancels (tid : Nat) : Exec FsSig World
  | .tryLock path perm, w, r, w' =>
      r = .error .canceled ∧
        (w' = w ∨ ∃ p, w.fs.openTarget path = .ok p ∧ ∃ h : w.fs.Vacant p,
          w' = w.setFs (w.fs.addFile p (w.perm perm) tid h))
  | .ctxErr, w, r, w' => r = some .canceled ∧ w' = w
  | _, _, _, _ => False

/-- Which operations may fail, and whether the context may be cancelled. -/
structure Mode where
  fails : FsOp → Prop
  cancels : Prop

/-- Nothing fails and nothing is cancelled. -/
def Mode.calm : Mode := ⟨fun _ => False, False⟩

/-- Something may fail, or the context be cancelled. -/
def Mode.Faulty (m : Mode) : Prop := (∃ op, m.fails op) ∨ m.cancels

theorem Mode.calm_not_faulty : ¬ Mode.calm.Faulty := by
  rintro (⟨_, h⟩ | h) <;> exact h

/-- Everything may fail at any time. -/
def Mode.storm : Mode := ⟨fun _ => True, True⟩

/-- The operations of the call `tid` on a machine of the given mode. -/
def exec (m : Mode) (tid : Nat) : Exec FsSig World := fun op w r w' =>
  Nominal tid op w r w' ∨ (m.fails op ∧ Fails tid op w r w') ∨
    (m.cancels ∧ Cancels tid op w r w')

/-! ## What an operation may do -/

section Invert

variable {m : Mode} {tid : Nat} {w w' : World}

/-- A creating call fails and changes nothing, or creates its entry. -/
theorem creates_cases {α : Type} {where_ : Except Errno Loc} {r : Except Errno α}
    {made : (p : Loc) → w.fs.Vacant p → Except Errno α → World → Prop}
    (h : Creates w where_ r w' made) :
    (∃ e, where_ = .error e ∧ r = .error e ∧ w' = w) ∨
      (∃ p, where_ = .ok p ∧ w.fs.node p ≠ none ∧ r = .error .exist ∧ w' = w) ∨
      ∃ p hv, where_ = .ok p ∧ made p hv r w' := by
  unfold Creates at h
  cases where_ with
  | error e => exact .inl ⟨e, rfl, h⟩
  | ok p =>
      rcases h with ⟨hn, hr, hw⟩ | ⟨hv, hm⟩
      · exact .inr (.inl ⟨p, rfl, hn, hr, hw⟩)
      · exact .inr (.inr ⟨p, hv, rfl, hm⟩)

variable {path : Bytes} {r : Except Errno Unit}

theorem exec_lstat {r : Except Errno FileInfo} (h : exec m tid (.lstat path) w r w') :
    w' = w ∧ (r = w.fs.lstat path ∨ m.fails (.lstat path) ∧ ∃ k, r = .error (.other k)) := by
  rcases h with ⟨hr, hw⟩ | ⟨hm, hr, hw⟩ | ⟨_, h⟩
  · exact ⟨hw, .inl hr⟩
  · exact ⟨hw, .inr ⟨hm, hr⟩⟩
  · exact h.elim

theorem exec_stat {r : Except Errno FileInfo} (h : exec m tid (.stat path) w r w') :
    w' = w ∧ (r = w.fs.stat path ∨ m.fails (.stat path) ∧ ∃ k, r = .error (.other k)) := by
  rcases h with ⟨hr, hw⟩ | ⟨hm, hr, hw⟩ | ⟨_, h⟩
  · exact ⟨hw, .inl hr⟩
  · exact ⟨hw, .inr ⟨hm, hr⟩⟩
  · exact h.elim

theorem exec_readFile {r : Except Errno Bytes} (h : exec m tid (.readFile path) w r w') :
    w' = w ∧ (r = (w.fs.fileAt path).map (fun ino => (w.fs.inode ino).data) ∨
      m.fails (.readFile path) ∧ ∃ k, r = .error (.other k)) := by
  rcases h with ⟨hr, hw⟩ | ⟨hm, hr, hw⟩ | ⟨_, h⟩
  · exact ⟨hw, .inl hr⟩
  · exact ⟨hw, .inr ⟨hm, hr⟩⟩
  · exact h.elim

theorem exec_readNext (h : exec m tid .readNext w r w') :
    w' = w ∧ (r = .ok () ∨ m.fails .readNext ∧ ∃ k, r = .error (.other k)) := by
  rcases h with ⟨hr, hw⟩ | ⟨hm, hr, hw⟩ | ⟨_, h⟩
  · exact ⟨hw, .inl hr⟩
  · exact ⟨hw, .inr ⟨hm, hr⟩⟩
  · exact h.elim

theorem exec_close {fd : Fd} (h : exec m tid (.close fd) w r w') :
    w' = w ∧ (r = .ok () ∨ m.fails (.close fd) ∧ ∃ k, r = .error (.other k)) := by
  rcases h with ⟨hr, hw⟩ | ⟨hm, hr, hw⟩ | ⟨_, h⟩
  · exact ⟨hw, .inl hr⟩
  · exact ⟨hw, .inr ⟨hm, hr⟩⟩
  · exact h.elim

theorem exec_ctxErr {r : Option Errno} (h : exec m tid .ctxErr w r w') :
    w' = w ∧ (r = none ∨ m.cancels ∧ r = some .canceled) := by
  rcases h with ⟨hr, hw⟩ | ⟨_, h⟩ | ⟨hm, hr, hw⟩
  · exact ⟨hw, .inl hr⟩
  · exact h.elim
  · exact ⟨hw, .inr ⟨hm, hr⟩⟩

/-- A call that creates an entry fails on the machine's account, or does what it
nominally does. -/
theorem exec_mkdir {perm : Nat} (h : exec m tid (.mkdir path perm) w r w') :
    (m.fails (.mkdir path perm) ∧ (∃ k, r = .error (.other k)) ∧ w' = w) ∨
      Nominal tid (.mkdir path perm) w r w' := by
  rcases h with h | h | ⟨_, h⟩
  · exact .inr h
  · exact .inl h
  · exact h.elim

theorem exec_openExcl {perm : Nat} {r : Except Errno Fd}
    (h : exec m tid (.openExcl path perm) w r w') :
    (m.fails (.openExcl path perm) ∧ (∃ k, r = .error (.other k)) ∧ w' = w) ∨
      Nominal tid (.openExcl path perm) w r w' := by
  rcases h with h | h | ⟨_, h⟩
  · exact .inr h
  · exact .inl h
  · exact h.elim

theorem exec_symlink {target : Bytes} (h : exec m tid (.symlink target path) w r w') :
    (m.fails (.symlink target path) ∧ (∃ k, r = .error (.other k)) ∧ w' = w) ∨
      Nominal tid (.symlink target path) w r w' := by
  rcases h with h | h | ⟨_, h⟩
  · exact .inr h
  · exact .inl h
  · exact h.elim

theorem exec_link {old new : Bytes} (h : exec m tid (.link old new) w r w') :
    (m.fails (.link old new) ∧ (∃ k, r = .error (.other k)) ∧ w' = w) ∨
      Nominal tid (.link old new) w r w' := by
  rcases h with h | h | ⟨_, h⟩
  · exact .inr h
  · exact .inl h
  · exact h.elim

/-- A write appends all of its data, or fails after a part of it. -/
theorem exec_write {fd : Fd} {data : Bytes} (h : exec m tid (.write fd data) w r w') :
    ∃ part, w' = w.setFs (w.fs.setData fd ((w.fs.inode fd).data ++ part)) ∧
      (r = .ok () ∧ part = data ∨ m.fails (.write fd data) ∧ ∃ k, r = .error (.other k)) := by
  rcases h with ⟨hr, hw⟩ | ⟨hm, hr, part, _, hw⟩ | ⟨_, h⟩
  · exact ⟨data, hw, .inl ⟨hr, rfl⟩⟩
  · exact ⟨part, hw, .inr ⟨hm, hr⟩⟩
  · exact h.elim

end Invert

/-! ## The operations as programs -/

abbrev Sys (α : Type) : Type 1 := Prog FsSig α

namespace Sys

def lstat (path : Bytes) : Sys (Except Errno FileInfo) := Prog.perform (S := FsSig) (.lstat path)
def stat (path : Bytes) : Sys (Except Errno FileInfo) := Prog.perform (S := FsSig) (.stat path)
def mkdir (path : Bytes) (perm : Nat) : Sys (Except Errno Unit) :=
  Prog.perform (S := FsSig) (.mkdir path perm)
def openExcl (path : Bytes) (perm : Nat) : Sys (Except Errno Fd) :=
  Prog.perform (S := FsSig) (.openExcl path perm)
def openTrunc (path : Bytes) (perm : Nat) : Sys (Except Errno Fd) :=
  Prog.perform (S := FsSig) (.openTrunc path perm)
def openAppend (path : Bytes) : Sys (Except Errno Fd) :=
  Prog.perform (S := FsSig) (.openAppend path)
def readFile (path : Bytes) : Sys (Except Errno Bytes) :=
  Prog.perform (S := FsSig) (.readFile path)
def readNext : Sys (Except Errno Unit) := Prog.perform (S := FsSig) .readNext
def write (fd : Fd) (data : Bytes) : Sys (Except Errno Unit) :=
  Prog.perform (S := FsSig) (.write fd data)
def close (fd : Fd) : Sys (Except Errno Unit) := Prog.perform (S := FsSig) (.close fd)
def symlink (target path : Bytes) : Sys (Except Errno Unit) :=
  Prog.perform (S := FsSig) (.symlink target path)
def link (old new : Bytes) : Sys (Except Errno Unit) :=
  Prog.perform (S := FsSig) (.link old new)
def createTemp (dir pre suf : Bytes) : Sys (Except Errno (Bytes × Fd)) :=
  Prog.perform (S := FsSig) (.createTemp dir pre suf)
def mkdirTemp (dir pre suf : Bytes) : Sys (Except Errno Bytes) :=
  Prog.perform (S := FsSig) (.mkdirTemp dir pre suf)
def listTree (path : Bytes) : Sys (Except Errno (List Loc)) :=
  Prog.perform (S := FsSig) (.listTree path)
def remove (path : Bytes) : Sys (Except Errno Unit) := Prog.perform (S := FsSig) (.remove path)
def renameDir (old new : Bytes) : Sys (Except Errno Unit) :=
  Prog.perform (S := FsSig) (.renameDir old new)
def tryLock (path : Bytes) (perm : Nat) : Sys (Except Errno Loc) :=
  Prog.perform (S := FsSig) (.tryLock path perm)
def unlock (lock : Loc) : Sys Unit := Prog.perform (S := FsSig) (.unlock lock)
def snapshot (path : Bytes) : Sys (Except Errno Tree) :=
  Prog.perform (S := FsSig) (.snapshot path)
def ctxErr : Sys (Option Errno) := Prog.perform (S := FsSig) .ctxErr

end Sys

end BuilderShim.Posix
