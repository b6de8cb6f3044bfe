/-
  Fileutils/CacheState.lean --- the cache directory and the protocol its users
  follow.

  Entries, lock files and temporaries all sit directly in the cache directory.
  `Complete` is what `CachedContextPresent` looks for, `Legit` what a complete
  entry is meant to be: the tree of an archive with the entry's digest, and the
  marker.  `Allowed` says what one step of one call may do to all of this:

  - a temporary is touched only by the call that created it;
  - an entry is touched only under its lock and while it is not complete, and
    then parts of it are removed, or it becomes a legitimate entry at once;
  - file contents are written only in the caller's own temporaries.
-/
import BuilderShim.Posix.Observe
import BuilderShim.Fileutils.Extract
import BuilderShim.Fileutils.Names
import BuilderShim.GoLib.OsSpec

set_option autoImplicit false

namespace BuilderShim.Fileutils

open BuilderShim.Filepath
open BuilderShim.Foundation
open BuilderShim.Posix

/-- Where the cache is: `pre` leads to an existing directory, and `names` are
the directories below it that `MkdirAll` creates if they are missing. -/
structure CacheSite where
  rooted : Bool
  pre : List Bytes
  names : List Bytes
  anchor : Loc
  umask : Nat
  pre_clean : CleanParts rooted pre
  names_proper : ∀ x ∈ names, Name x
  ne_nil : pre ++ names ≠ []

namespace CacheSite

variable (c : CacheSite)

def parts : List Bytes := c.pre ++ c.names

/-- `cacheBase`. -/
def base : Bytes := render c.rooted c.parts

def loc : Loc := c.anchor ++ c.names

def site : Site := ⟨c.rooted, c.parts, c.loc, c.umask⟩

/-- What is called `t` in the cache directory. -/
def child (t : Bytes) : Loc := c.loc ++ [t]

/-- A directory in the cache as a place to work in. -/
def region (t : Bytes) : Site := ⟨c.rooted, c.parts ++ [t], c.child t, c.umask⟩

def lockLoc (d : Bytes) : Loc := c.child (lockName d)

/-- The part of the file system that belongs to the cache. -/
def Inner (q : Loc) : Prop := Below c.anchor q ∧ (q <+: c.loc ∨ c.loc <+: q)

/-- The path of the cache leads to its place whatever happens inside it, and
nothing is in the way of creating it. -/
structure Rooted (w : World) : Prop where
  anchored : ∀ fs' : FS, fs'.cwd = w.fs.cwd →
    (∀ q, ¬ c.Inner q → fs'.node q = w.fs.node q) → fs'.At c.rooted c.pre c.anchor
  chain : ∀ ns, ns ≠ [] → ns <+: c.names →
    w.fs.node (c.anchor ++ ns) = none ∨ w.fs.isDir (c.anchor ++ ns) = true
  umask_eq : w.umask = c.umask

/-- The cache directory exists. -/
def Ready (w : World) : Prop := w.fs.isDir c.loc = true

/-- A complete entry, as `checkCache` looks for one. -/
structure Complete (w : World) (d : Bytes) : Prop where
  isDir : w.fs.isDir (c.child d) = true
  marker : ∃ k, w.fs.RefersTo (c.child d ++ [cacheCompletionMarker]) k ∧
    (w.fs.inode k).data = cacheCompletionValue

/-- The tree to be found in the entry `d`: that of an archive with this digest, and
the completion marker. -/
def Published (x : Extern) (d : Bytes) (T : TreeMap) : Prop :=
  ∃ archive tree, hexEncode (x.sha256 archive) = d ∧
    extract c.umask (emptyTree (maskPerm c.umask 0o700)) (x.untar archive) = some tree ∧
    T = tree.insert [cacheCompletionMarker] (.file (maskPerm c.umask 0o600) cacheCompletionValue)

def Legit (x : Extern) (w : World) (d : Bytes) : Prop :=
  ∃ T, c.Published x d T ∧ ∀ rel, w.fs.view (c.child d) rel = T rel

/-- What `CachedContextPresent` answers in the state `w`. -/
def answer (w : World) (d : Bytes) : Option (Except Err Bool) :=
  observe (cachedContextPresent c.base d) w

/-! ## Steps -/

/-- The temporary `t` was created by the call `i`. -/
structure OwnTemp (i : Nat) (w : World) (t : Bytes) : Prop where
  temp : TempName t
  owner : ∃ n, w.fs.node (c.child t) = some n ∧ n.owner = i

/-- In a temporary of the call `i`. -/
def UnderOwn (i : Nat) (w : World) (q : Loc) : Prop := ∃ t, c.OwnTemp i w t ∧ c.child t <+: q

def Same (w w' : World) (t : Bytes) : Prop :=
  ∀ rel, w'.fs.node (c.child t ++ rel) = w.fs.node (c.child t ++ rel)

def Shrinks (w w' : World) (t : Bytes) : Prop :=
  ∀ rel, w'.fs.node (c.child t ++ rel) = w.fs.node (c.child t ++ rel) ∨
    w'.fs.node (c.child t ++ rel) = none

/-- What a step of the call `i` may do with the name `t`, publishing apart. -/
inductive EntryStep (i : Nat) (w w' : World) (t : Bytes) : Prop
  | same (h : c.Same w w' t)
  | temp (ht : TempName t) (before : w.fs.node (c.child t) = none ∨ c.OwnTemp i w t)
      (after : w'.fs.node (c.child t) = none ∨ c.OwnTemp i w' t)
  | lock (d : Bytes) (hd : IsDigest d) (ht : t = lockName d)
      (before : w.fs.node (c.child t) = none) (after : ∃ k, w'.fs.RefersTo (c.child t) k)
  | clear (hd : IsDigest t) (held : w.locks (c.lockLoc t) = some i)
      (stale : c.answer w t = some (.ok false)) (h : c.Shrinks w w' t)

/-- What a step of the call `i` does to everything but the entries. -/
structure Framed (i : Nat) (w w' : World) : Prop where
  outside : ∀ q, ¬ c.Inner q → w'.fs.node q = w.fs.node q
  cwd : w'.fs.cwd = w.fs.cwd
  umask : w'.umask = w.umask
  chain : ∀ ns, ns ≠ [] → ns <+: c.names →
    w'.fs.node (c.anchor ++ ns) = w.fs.node (c.anchor ++ ns) ∨
      (w.fs.node (c.anchor ++ ns) = none ∧ w'.fs.isDir (c.anchor ++ ns) = true)
  inode : ∀ k, k < w.fs.nextIno → w'.fs.inode k ≠ w.fs.inode k →
    ∀ q, w.fs.RefersTo q k → c.UnderOwn i w q
  refs : ∀ q k, w'.fs.RefersTo q k → k < w.fs.nextIno →
    w.fs.RefersTo q k ∨ ∃ q', c.UnderOwn i w q' ∧ w.fs.RefersTo q' k
  nextIno : w.fs.nextIno ≤ w'.fs.nextIno
  locks : ∀ p, w'.locks p = w.locks p ∨ (w.locks p = none ∧ w'.locks p = some i) ∨
    (w.locks p = some i ∧ w'.locks p = none)

/-- A step that publishes nothing. -/
structure Tidy (i : Nat) (w w' : World) : Prop where
  framed : c.Framed i w w'
  entry : ∀ t, c.EntryStep i w w' t

/-- The step that publishes the entry `d`. -/
structure Publishes (x : Extern) (i : Nat) (w w' : World) (d : Bytes) : Prop where
  framed : c.Framed i w w'
  digest : IsDigest d
  held : w.locks (c.lockLoc d) = some i
  stale : c.answer w d = some (.ok false)
  legit : c.Legit x w' d
  entry : ∀ t, t ≠ d → c.EntryStep i w w' t

/-- What one step of the call `i` may do. -/
def Allowed (x : Extern) (i : Nat) (w w' : World) : Prop :=
  c.Tidy i w w' ∨ ∃ d, c.Publishes x i w w' d

end CacheSite

end BuilderShim.Fileutils
