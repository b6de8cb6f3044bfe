/-
  Posix/Answered.lean --- the calls that are always answered.

  A call that creates an entry finds its path wrong, or an entry there already, or
  a place for it: no path leads to a location without a directory above it.
-/
import BuilderShim.Foundation.Ending
import BuilderShim.Posix.Syscall

set_option autoImplicit false

namespace BuilderShim.Posix

open BuilderShim.Filepath
open BuilderShim.Foundation

namespace FS

variable {fs : FS}

theorem node_dropLast {p : Loc} (h : fs.node p ≠ none) : fs.node p.dropLast ≠ none := by
  by_cases hp : p = []
  · rw [hp] at h ⊢
    exact h
  · refine node_ne_none_of_isDir (isDir_of_below (q := [p.getLast hp]) ?_ (by simp))
    rw [List.dropLast_append_getLast hp]
    exact h

theorem walkWith_exists {follow : Loc → List Bytes → Except Errno Loc}
    (hfollow : ∀ cur xs d, fs.node cur ≠ none → follow cur xs = .ok d → fs.node d ≠ none)
    {cur d : Loc} {xs : List Bytes} (hcur : fs.node cur ≠ none)
    (h : fs.walkWith follow cur xs = .ok d) : fs.node d ≠ none := by
  induction xs generalizing cur with
  | nil =>
      simp only [walkWith, Except.ok.injEq] at h
      rwa [← h]
  | cons c cs ih =>
      rw [walkWith] at h
      split at h
      · cases h
      split at h
      · exact ih hcur h
      split at h
      · exact ih (node_dropLast hcur) h
      split at h
      · cases h
      rename_i n hn
      split at h
      · refine hfollow _ _ _ ?_ h
        split
        · exact node_ne_none_of_isDir fs.root_isDir
        · exact hcur
      · exact ih (by simp [hn]) h

/-- A walk ends at something that exists. -/
theorem walk_exists {fuel : Nat} {cur d : Loc} {xs : List Bytes} (hcur : fs.node cur ≠ none)
    (h : fs.walk fuel cur xs = .ok d) : fs.node d ≠ none := by
  induction fuel generalizing cur xs d with
  | zero => exact walkWith_exists (fun _ _ _ _ h => by cases h) hcur h
  | succ fuel ih => exact walkWith_exists (fun _ _ _ hc h => ih hc h) hcur h

/-- What elements name exists or can be created. -/
theorem locateFrom_vacant {cur : Loc} {elements : List Bytes} {p : Loc}
    (h : fs.locateFrom cur elements = .ok p) (hnone : fs.node p = none) : fs.Vacant p := by
  unfold locateFrom at h
  split at h
  · cases h
  rename_i last hlast
  split at h
  · rename_i hname
    split at h
    · cases h
    rename_i d _
    split at h
    · rename_i hdir
      cases h
      exact ⟨hnone, d, last, rfl, hdir, hname⟩
    · cases h
  · -- elements that do not end in a name name what they resolve to
    refine absurd hnone ?_
    obtain ⟨c, cs, hsplit⟩ := List.exists_cons_of_ne_nil (List.ne_nil_of_mem
      (List.mem_of_getLast? hlast))
    rw [hsplit] at h
    by_cases hdir : fs.isDir cur = true
    · exact walk_exists (node_ne_none_of_isDir hdir) h
    · rw [walk_notdir (by simpa using hdir)] at h
      cases h

theorem locate_vacant {path : Bytes} {p : Loc} (h : fs.locate path = .ok p)
    (hnone : fs.node p = none) : fs.Vacant p :=
  locateFrom_vacant h hnone

/-- The same for what `open` works on. -/
theorem followLast_vacant {fuel : Nat} {cur : Loc} {elements : List Bytes} {p : Loc}
    (h : fs.followLast fuel cur elements = .ok p) (hnone : fs.node p = none) : fs.Vacant p := by
  induction fuel generalizing cur elements with
  | zero =>
      unfold followLast at h
      split at h
      · cases h
      · rename_i q hloc
        split at h
        · cases h
        · cases h
          exact locateFrom_vacant hloc hnone
  | succ fuel ih =>
      unfold followLast at h
      split at h
      · cases h
      · rename_i q hloc
        split at h
        · exact ih h
        · cases h
          exact locateFrom_vacant hloc hnone

end FS

theorem creates_answered {α : Type} (w : World) (path : Bytes)
    {made : (p : Loc) → w.fs.Vacant p → Except Errno α → World → Prop}
    (hmade : ∀ p h, ∃ r w', made p h r w') :
    ∃ r w', Creates w (w.fs.locate path) r w' made := by
  unfold Creates
  cases hp : w.fs.locate path with
  | error e => exact ⟨.error e, w, rfl, rfl⟩
  | ok p =>
      by_cases hn : w.fs.node p = none
      · have hv := FS.locate_vacant hp hn
        obtain ⟨r, w', hm⟩ := hmade p hv
        exact ⟨r, w', .inr ⟨hv, hm⟩⟩
      · exact ⟨.error .exist, w, .inl ⟨hn, rfl, rfl⟩⟩

/-- The calls that unpacking an archive makes. -/
def FsOp.Answered : FsOp → Prop
  | .lstat _ | .stat _ | .mkdir _ _ | .openExcl _ _ | .readFile _ | .readNext | .write _ _
  | .close _ | .symlink _ _ | .link _ _ | .ctxErr => True
  | _ => False

/-- They never block. -/
theorem exec_answered (m : Mode) (tid : Nat) (op : FsOp) (hop : op.Answered) (w : World) :
    ∃ r w', exec m tid op w r w' := by
  suffices h : ∃ r w', Nominal tid op w r w' by
    obtain ⟨r, w', h⟩ := h
    exact ⟨r, w', .inl h⟩
  cases op with
  | lstat path => exact ⟨_, w, rfl, rfl⟩
  | stat path => exact ⟨_, w, rfl, rfl⟩
  | readFile path => exact ⟨_, w, rfl, rfl⟩
  | readNext => exact ⟨_, w, rfl, rfl⟩
  | write fd data => exact ⟨_, _, rfl, rfl⟩
  | close fd => exact ⟨_, w, rfl, rfl⟩
  | ctxErr => exact ⟨_, w, rfl, rfl⟩
  | mkdir path perm => exact creates_answered w path fun p h => ⟨_, _, rfl, rfl⟩
  | openExcl path perm => exact creates_answered w path fun p h => ⟨_, _, rfl, rfl⟩
  | symlink target path =>
      simp only [Nominal]
      split
      · exact ⟨_, w, rfl, rfl⟩
      · exact creates_answered w path fun p h => ⟨_, _, rfl, rfl⟩
  | link old new =>
      simp only [Nominal]
      split
      · exact ⟨_, w, rfl, rfl⟩
      · split
        · exact ⟨_, w, rfl, rfl⟩
        · split
          · exact ⟨_, w, rfl, rfl⟩
          · exact creates_answered w new fun p h => ⟨_, _, rfl, rfl⟩
  | _ => exact hop.elim

end BuilderShim.Posix
