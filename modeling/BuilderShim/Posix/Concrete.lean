/-
  Posix/Concrete.lean --- file systems given by a list of their nodes.

  The conditions every file system satisfies are decidable for such a list, so a
  concrete machine is one `decide` away.
-/
import BuilderShim.Posix.Syscall

set_option autoImplicit false

namespace BuilderShim.Posix

open BuilderShim.Filepath

/-- The inode of a regular file is one of the first `inodes`. -/
def Kind.within (inodes : Nat) : Kind → Bool
  | .file i => decide (i < inodes)
  | _ => true

/-- The nodes listed make up a file system with `inodes` inodes. -/
def Listed (nodes : List (Loc × Node)) (inodes : Nat) : Prop :=
  (nodes.lookup []).any Node.isDir = true ∧
    ∀ e ∈ nodes, (e.1 ≠ [] → (nodes.lookup e.1.dropLast).any Node.isDir = true) ∧
      (∀ c ∈ e.1, Name c) ∧ e.2.kind.within inodes = true

instance (nodes : List (Loc × Node)) (inodes : Nat) : Decidable (Listed nodes inodes) :=
  inferInstanceAs (Decidable (_ ∧ ∀ e ∈ nodes, _))

theorem mem_of_lookup {nodes : List (Loc × Node)} {p : Loc} {n : Node}
    (h : nodes.lookup p = some n) : (p, n) ∈ nodes := by
  induction nodes with
  | nil => cases h
  | cons e nodes ih =>
      obtain ⟨q, k⟩ := e
      rw [List.lookup_cons] at h
      by_cases hpq : p = q
      · subst hpq
        simp only [beq_self_eq_true, Option.some.injEq] at h
        exact List.mem_cons.mpr (.inl (by rw [h]))
      · have hbeq : (p == q) = false := by simpa using hpq
        rw [hbeq] at h
        exact List.mem_cons_of_mem _ (ih h)

/-- The file system with the nodes listed. -/
def FS.ofList (nodes : List (Loc × Node)) (inodes : List Inode) (cwd : Loc)
    (h : Listed nodes inodes.length) : FS where
  node q := nodes.lookup q
  inode i := inodes.getD i ⟨[], 0⟩
  nextIno := inodes.length
  cwd := cwd
  root_isDir := h.1
  closed := by
    intro p c hne
    obtain ⟨n, hn⟩ := Option.ne_none_iff_exists'.mp hne
    have := (h.2 _ (mem_of_lookup hn)).1 (by simp)
    simpa using this
  names := by
    intro p hne
    obtain ⟨n, hn⟩ := Option.ne_none_iff_exists'.mp hne
    exact (h.2 _ (mem_of_lookup hn)).2.1
  finite := by
    refine (List.finite_toSet (nodes.map Prod.fst)).subset ?_
    intro p hp
    obtain ⟨n, hn⟩ := Option.ne_none_iff_exists'.mp hp
    exact List.mem_map.mpr ⟨_, mem_of_lookup hn, rfl⟩
  ino_lt := by
    intro p n i hn hk
    have := (h.2 _ (mem_of_lookup hn)).2.2
    simpa [hk, Kind.within] using this

@[simp] theorem FS.ofList_node {nodes : List (Loc × Node)} {inodes : List Inode} {cwd : Loc}
    {h : Listed nodes inodes.length} (q : Loc) :
    (FS.ofList nodes inodes cwd h).node q = nodes.lookup q := rfl

end BuilderShim.Posix
