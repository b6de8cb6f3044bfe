/-
  Posix/FileSystem.lean --- a file system as the kernel keeps it.

  A location is the list of names from the root directory, symlinks already
  resolved.  A file system maps locations to nodes and inode numbers to file
  contents, so two hard links are two nodes with one inode.  What every file
  system satisfies is part of the structure: the root is a directory, a node's
  parent is a directory, names are proper names, nodes are finitely many, and
  the inode counter is ahead of every inode in use.  The updates below keep
  these by construction.

  `owner` records which call created a node.  No operation reads it; the
  concurrency arguments do.
-/
import Mathlib.Data.Set.Finite.Basic
import BuilderShim.GoLib.Filepath

set_option autoImplicit false

namespace BuilderShim.Posix

open BuilderShim.Filepath

/-- The error numbers the program can tell apart, and all others. -/
inductive Errno where
  | noent
  | notdir
  | exist
  | isdir
  | notempty
  | loop
  | inval
  | perm
  /-- the context was cancelled while waiting -/
  | canceled
  | other (code : Nat)
  deriving DecidableEq, Repr

/-- Names from the root directory, no symlink among them. -/
abbrev Loc : Type := List Bytes

inductive Kind where
  | dir (perm : Nat)
  | file (ino : Nat)
  | symlink (target : Bytes)
  deriving DecidableEq, Repr

structure Node where
  kind : Kind
  owner : Nat
  deriving DecidableEq, Repr

def Node.isDir (n : Node) : Bool :=
  match n.kind with
  | .dir _ => true
  | _ => false

structure Inode where
  data : Bytes
  perm : Nat
  deriving DecidableEq, Repr

structure FS where
  node : Loc → Option Node
  inode : Nat → Inode
  nextIno : Nat
  /-- where relative paths start -/
  cwd : Loc
  root_isDir : (node []).any Node.isDir = true
  closed : ∀ p c, node (p ++ [c]) ≠ none → (node p).any Node.isDir = true
  names : ∀ p, node p ≠ none → ∀ c ∈ p, Name c
  finite : {p | node p ≠ none}.Finite
  ino_lt : ∀ p n i, node p = some n → n.kind = .file i → i < nextIno

namespace FS

/-- There is a directory at `p`, not a symlink to one. -/
def isDir (fs : FS) (p : Loc) : Bool := (fs.node p).any Node.isDir

variable {fs : FS} {p q new old : Loc} {n : Node} {owner perm ino i : Nat} {data : Bytes}

theorem isDir_iff :
    fs.isDir p = true ↔ ∃ n, fs.node p = some n ∧ n.isDir = true := by
  unfold isDir
  cases fs.node p <;> simp

theorem node_ne_none_of_isDir (h : fs.isDir p = true) : fs.node p ≠ none := by
  obtain ⟨n, hn, _⟩ := isDir_iff.mp h
  simp [hn]

/-- Every node above an existing one is a directory. -/
theorem isDir_of_below (h : fs.node (p ++ q) ≠ none) (hq : q ≠ []) :
    fs.isDir p = true := by
  induction q using List.reverseRecOn with
  | nil => exact absurd rfl hq
  | append_singleton q c ih =>
      rw [← List.append_assoc] at h
      have hparent := fs.closed (p ++ q) c h
      by_cases hq' : q = []
      · subst hq'
        simpa [isDir] using hparent
      · exact ih (node_ne_none_of_isDir hparent) hq'

theorem node_below_eq_none (h : fs.isDir p = false) (hq : q ≠ []) :
    fs.node (p ++ q) = none := by
  by_contra hne
  rw [isDir_of_below hne hq] at h
  exact absurd h (by simp)

/-- A location where an entry can be created: nothing there, in a directory. -/
structure Vacant (fs : FS) (p : Loc) : Prop where
  free : fs.node p = none
  entry : ∃ d c, p = d ++ [c] ∧ fs.isDir d = true ∧ Name c

theorem Vacant.below (h : fs.Vacant p) (q : Loc) : fs.node (p ++ q) = none := by
  by_cases hq : q = []
  · rw [hq, List.append_nil]
    exact h.free
  · refine node_below_eq_none ?_ hq
    simp [isDir, h.free]

/-! ## Updates -/

/-- Create a node. -/
def add (fs : FS) (p : Loc) (n : Node) (h : fs.Vacant p)
    (hi : ∀ i, n.kind = .file i → i < fs.nextIno) : FS where
  node q := if q = p then some n else fs.node q
  inode := fs.inode
  nextIno := fs.nextIno
  cwd := fs.cwd
  root_isDir := by
    obtain ⟨d, c, rfl, _, _⟩ := h.entry
    simpa using fs.root_isDir
  closed := by
    intro q c hq
    by_cases hqp : q ++ [c] = p
    · obtain ⟨d, c', hp, hd, _⟩ := h.entry
      have hdq : q = d := (List.append_inj' (hqp.trans hp) rfl).1
      have hne : q ≠ p := by
        intro he
        have := congrArg List.length (hqp.trans he.symm)
        simp at this
      rw [if_neg hne, hdq]
      exact hd
    · rw [if_neg hqp] at hq
      have hne : q ≠ p := by
        rintro rfl
        exact hq (h.below [c])
      rw [if_neg hne]
      exact fs.closed q c hq
  names := by
    intro q hq
    by_cases hqp : q = p
    · obtain ⟨d, c, hp, hd, hc⟩ := h.entry
      rw [hqp, hp]
      intro x hx
      rcases List.mem_append.mp hx with hx | hx
      · exact fs.names d (node_ne_none_of_isDir hd) x hx
      · rw [List.mem_singleton.mp hx]
        exact hc
    · rw [if_neg hqp] at hq
      exact fs.names q hq
  finite := by
    refine (fs.finite.insert p).subset ?_
    intro q hq
    by_cases hqp : q = p
    · exact Set.mem_insert_iff.mpr (.inl hqp)
    · have hq' : fs.node q ≠ none := by simpa [hqp] using hq
      exact Set.mem_insert_of_mem p hq'
  ino_lt := by
    intro q m i hq hk
    by_cases hqp : q = p
    · rw [if_pos hqp] at hq
      cases hq
      exact hi i hk
    · rw [if_neg hqp] at hq
      exact fs.ino_lt q m i hq hk

@[simp] theorem add_node {h : fs.Vacant p} {hi : ∀ i, n.kind = .file i → i < fs.nextIno} (q : Loc) :
    (fs.add p n h hi).node q = if q = p then some n else fs.node q := rfl

@[simp] theorem add_inode {h : fs.Vacant p} {hi : ∀ i, n.kind = .file i → i < fs.nextIno} :
    (fs.add p n h hi).inode = fs.inode := rfl

@[simp] theorem add_nextIno {h : fs.Vacant p} {hi : ∀ i, n.kind = .file i → i < fs.nextIno} :
    (fs.add p n h hi).nextIno = fs.nextIno := rfl

/-- Take a fresh inode with no data. -/
def alloc (fs : FS) (perm : Nat) : FS where
  node := fs.node
  inode i := if i = fs.nextIno then ⟨[], perm⟩ else fs.inode i
  nextIno := fs.nextIno + 1
  cwd := fs.cwd
  root_isDir := fs.root_isDir
  closed := fs.closed
  names := fs.names
  finite := fs.finite
  ino_lt p n i hp hk := Nat.lt_succ_of_lt (fs.ino_lt p n i hp hk)

theorem Vacant.alloc (h : fs.Vacant p) (perm : Nat) :
    (fs.alloc perm).Vacant p :=
  ⟨h.free, h.entry⟩

/-- Create a regular file with no data. -/
def addFile (fs : FS) (p : Loc) (perm owner : Nat) (h : fs.Vacant p) : FS :=
  (fs.alloc perm).add p ⟨.file fs.nextIno, owner⟩ (h.alloc perm) fun i hi => by
    cases hi
    exact Nat.lt_succ_self _

@[simp] theorem addFile_node {h : fs.Vacant p} (q : Loc) :
    (fs.addFile p perm owner h).node q =
      if q = p then some ⟨.file fs.nextIno, owner⟩ else fs.node q := rfl

@[simp] theorem addFile_inode {h : fs.Vacant p} (i : Nat) :
    (fs.addFile p perm owner h).inode i =
      if i = fs.nextIno then ⟨[], perm⟩ else fs.inode i := rfl

@[simp] theorem addFile_nextIno {h : fs.Vacant p} :
    (fs.addFile p perm owner h).nextIno = fs.nextIno + 1 := rfl

/-- Change the contents of an inode. -/
def setData (fs : FS) (ino : Nat) (data : Bytes) : FS where
  node := fs.node
  inode i := if i = ino then { fs.inode i with data := data } else fs.inode i
  nextIno := fs.nextIno
  cwd := fs.cwd
  root_isDir := fs.root_isDir
  closed := fs.closed
  names := fs.names
  finite := fs.finite
  ino_lt := fs.ino_lt

@[simp] theorem setData_node :
    (fs.setData ino data).node = fs.node := rfl

@[simp] theorem setData_inode (i : Nat) :
    (fs.setData ino data).inode i =
      if i = ino then { fs.inode i with data := data } else fs.inode i := rfl

@[simp] theorem setData_nextIno :
    (fs.setData ino data).nextIno = fs.nextIno := rfl

/-- An entry that `unlink` or `rmdir` can take away: it has no children. -/
structure Removable (fs : FS) (p : Loc) : Prop where
  ne_root : p ≠ []
  leaf : ∀ c, fs.node (p ++ [c]) = none

/-- Remove a node without children. -/
def erase (fs : FS) (p : Loc) (h : fs.Removable p) : FS where
  node q := if q = p then none else fs.node q
  inode := fs.inode
  nextIno := fs.nextIno
  cwd := fs.cwd
  root_isDir := by
    rw [if_neg (fun he => h.ne_root he.symm)]
    exact fs.root_isDir
  closed := by
    intro q c hq
    by_cases hqc : q ++ [c] = p
    · simp [hqc] at hq
    · rw [if_neg hqc] at hq
      have hne : q ≠ p := by
        rintro rfl
        exact hq (h.leaf c)
      rw [if_neg hne]
      exact fs.closed q c hq
  names := by
    intro q hq
    by_cases hqp : q = p
    · simp [hqp] at hq
    · rw [if_neg hqp] at hq
      exact fs.names q hq
  finite := by
    refine fs.finite.subset ?_
    intro q hq
    by_cases hqp : q = p
    · simp [hqp] at hq
    · simpa [hqp] using hq
  ino_lt := by
    intro q m i hq hk
    by_cases hqp : q = p
    · simp [hqp] at hq
    · rw [if_neg hqp] at hq
      exact fs.ino_lt q m i hq hk

@[simp] theorem erase_node {h : fs.Removable p} (q : Loc) :
    (fs.erase p h).node q = if q = p then none else fs.node q := rfl

@[simp] theorem erase_inode {h : fs.Removable p} :
    (fs.erase p h).inode = fs.inode := rfl

@[simp] theorem erase_nextIno {h : fs.Removable p} :
    (fs.erase p h).nextIno = fs.nextIno := rfl

/-- A directory that `rename` can move to `new`: the target is free or an empty
directory, in a directory outside the moved one. -/
structure Movable (fs : FS) (old new : Loc) : Prop where
  old_isDir : fs.isDir old = true
  outside : ¬ old <+: new
  entry : ∃ d c, new = d ++ [c] ∧ fs.isDir d = true ∧ Name c
  target : fs.node new = none ∨ fs.isDir new = true
  empty : ∀ q, q ≠ [] → fs.node (new ++ q) = none

/-- The node at `q` after the tree at `old` has been moved to `new`. -/
def movedNode (fs : FS) (old new q : Loc) : Option Node :=
  if new <+: q then fs.node (old ++ q.drop new.length)
  else if old <+: q then none
  else fs.node q

theorem movedNode_new (fs : FS) (old new q : Loc) :
    fs.movedNode old new (new ++ q) = fs.node (old ++ q) := by
  simp [movedNode]

theorem movedNode_other (hn : ¬ new <+: q) (ho : ¬ old <+: q) :
    fs.movedNode old new q = fs.node q := by
  simp [movedNode, hn, ho]

/-- Move a directory. -/
def move (fs : FS) (old new : Loc) (h : fs.Movable old new) : FS where
  node := fs.movedNode old new
  inode := fs.inode
  nextIno := fs.nextIno
  cwd := fs.cwd
  root_isDir := by
    obtain ⟨d, c, rfl, _, _⟩ := h.entry
    have ho : ¬ old <+: [] := by
      intro hp
      rw [List.prefix_nil.mp hp] at h
      exact h.outside List.nil_prefix
    rw [movedNode_other (by simp) ho]
    exact fs.root_isDir
  closed := by
    intro q c hq
    by_cases hn : new <+: q ++ [c]
    · rcases List.prefix_concat_iff.mp hn with heq | hn'
      · -- the moved directory itself: its new parent is untouched
        obtain ⟨d, c', hnew, hd, _⟩ := h.entry
        have hdq : d = q := (List.append_inj' (hnew.symm.trans heq) rfl).1
        subst hdq
        have hnd : ¬ new <+: d := by
          intro hp
          have hlen := hp.length_le
          rw [heq, List.length_append, List.length_singleton] at hlen
          omega
        have hod : ¬ old <+: d := fun hp => h.outside (hnew ▸ hp.trans (List.prefix_append d [c']))
        rw [movedNode_other hnd hod]
        exact hd
      · obtain ⟨r, rfl⟩ := hn'
        rw [List.append_assoc, movedNode_new, ← List.append_assoc] at hq
        rw [movedNode_new]
        exact fs.closed (old ++ r) c hq
    · have ho : ¬ old <+: q ++ [c] := by
        intro hp
        simp [movedNode, hn, hp] at hq
      rw [movedNode_other hn ho] at hq
      have hn' : ¬ new <+: q := fun hp => hn (hp.trans (List.prefix_append q [c]))
      have ho' : ¬ old <+: q := fun hp => ho (hp.trans (List.prefix_append q [c]))
      rw [movedNode_other hn' ho']
      exact fs.closed q c hq
  names := by
    intro q hq
    by_cases hn : new <+: q
    · obtain ⟨r, rfl⟩ := hn
      rw [movedNode_new] at hq
      obtain ⟨d, c, hnew, hd, hc⟩ := h.entry
      intro x hx
      rcases List.mem_append.mp hx with hx | hx
      · rw [hnew] at hx
        rcases List.mem_append.mp hx with hx | hx
        · exact fs.names d (node_ne_none_of_isDir hd) x hx
        · rw [List.mem_singleton.mp hx]
          exact hc
      · exact fs.names _ hq x (List.mem_append_right old hx)
    · by_cases ho : old <+: q
      · simp [movedNode, hn, ho] at hq
      · rw [movedNode_other hn ho] at hq
        exact fs.names q hq
  finite := by
    refine ((fs.finite.image fun p => new ++ p.drop old.length).union fs.finite).subset ?_
    intro q hq
    simp only [Set.mem_ofPred_eq] at hq
    by_cases hn : new <+: q
    · obtain ⟨r, rfl⟩ := hn
      rw [movedNode_new] at hq
      exact .inl ⟨old ++ r, hq, by simp⟩
    · by_cases ho : old <+: q
      · simp [movedNode, hn, ho] at hq
      · rw [movedNode_other hn ho] at hq
        exact .inr hq
  ino_lt := by
    intro q m i hq hk
    by_cases hn : new <+: q
    · obtain ⟨r, rfl⟩ := hn
      rw [movedNode_new] at hq
      exact fs.ino_lt _ m i hq hk
    · by_cases ho : old <+: q
      · simp [movedNode, hn, ho] at hq
      · rw [movedNode_other hn ho] at hq
        exact fs.ino_lt q m i hq hk

@[simp] theorem move_node {h : fs.Movable old new} :
    (fs.move old new h).node = fs.movedNode old new := rfl

@[simp] theorem move_inode {h : fs.Movable old new} :
    (fs.move old new h).inode = fs.inode := rfl

@[simp] theorem move_nextIno {h : fs.Movable old new} :
    (fs.move old new h).nextIno = fs.nextIno := rfl

@[simp] theorem move_cwd {h : fs.Movable old new} :
    (fs.move old new h).cwd = fs.cwd := rfl

/-! ## References to inodes -/

/-- The regular file at `q` has the inode `i`. -/
def RefersTo (fs : FS) (q : Loc) (i : Nat) : Prop := ∃ n, fs.node q = some n ∧ n.kind = .file i

theorem RefersTo.lt (h : fs.RefersTo q i) : i < fs.nextIno := by
  obtain ⟨n, hn, hk⟩ := h
  exact fs.ino_lt q n i hn hk

theorem RefersTo.inj {j : Nat} (hi : fs.RefersTo q i) (hj : fs.RefersTo q j) : i = j := by
  obtain ⟨n, hn, hk⟩ := hi
  obtain ⟨n', hn', hk'⟩ := hj
  rw [hn] at hn'
  cases hn'
  rw [hk] at hk'
  exact Kind.file.inj hk'

/-- A name in a moved tree was one at its old place. -/
theorem RefersTo.of_move (h : fs.Movable old new) (hq : (fs.move old new h).RefersTo q i) :
    fs.RefersTo q i ∨ ∃ rel, q = new ++ rel ∧ fs.RefersTo (old ++ rel) i := by
  obtain ⟨n, hn, hk⟩ := hq
  rw [move_node] at hn
  by_cases hnew : new <+: q
  · obtain ⟨rel, rfl⟩ := hnew
    rw [movedNode_new] at hn
    exact .inr ⟨rel, rfl, n, hn, hk⟩
  · by_cases hold : old <+: q
    · simp [movedNode, hnew, hold] at hn
    · rw [movedNode_other hnew hold] at hn
      exact .inl ⟨n, hn, hk⟩

/-- Files below `d` have no name outside of it. -/
def Sealed (fs : FS) (d : Loc) : Prop :=
  ∀ rel q i, fs.RefersTo (d ++ rel) i → fs.RefersTo q i → d <+: q

end FS

end BuilderShim.Posix
