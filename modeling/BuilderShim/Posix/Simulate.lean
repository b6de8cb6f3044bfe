/-
  Posix/Simulate.lean --- running programs on a concrete machine.

  `attempt` computes what an operation nominally does, where that can be computed
  from the operation and the machine alone, and `simulate` runs a program that
  way.  A computed run is a run of the relational semantics.
-/
import BuilderShim.Posix.Concrete

set_option autoImplicit false

namespace BuilderShim.Posix

open BuilderShim.Filepath
open BuilderShim.Foundation

namespace FS

theorem vacant_iff {fs : FS} {p : Loc} :
    fs.Vacant p ↔ fs.node p = none ∧ fs.isDir p.dropLast = true ∧
      ∃ c ∈ p.getLast?, Name c := by
  constructor
  · rintro ⟨hfree, d, c, rfl, hd, hc⟩
    exact ⟨hfree, by simpa using hd, c, by simp, hc⟩
  · rintro ⟨hfree, hd, c, hlast, hc⟩
    exact ⟨hfree, p.dropLast, c, (List.dropLast_append_getLast? c hlast).symm, hd, hc⟩

instance (fs : FS) (p : Loc) : Decidable (fs.Vacant p) :=
  decidable_of_iff (fs.node p = none ∧ fs.isDir p.dropLast = true ∧
    (p.getLast?.any fun c => decide (Name c)) = true) <| by
    rw [vacant_iff]
    cases p.getLast? <;> simp

end FS

/-- A creating call, computed. -/
def create {α : Type} (w : World) (where_ : Except Errno Loc)
    (made : (p : Loc) → w.fs.Vacant p → Except Errno α × World) :
    Option (Except Errno α × World) :=
  match where_ with
  | .error e => some (.error e, w)
  | .ok p =>
      if w.fs.node p ≠ none then some (.error .exist, w)
      else if h : w.fs.Vacant p then some (made p h)
      else none

def createFresh {α : Type} (w : World) (where_ : Except Errno Loc)
    (made : (p : Loc) → w.fs.Vacant p → Except Errno α × World) :
    Option (Except Errno α × World) :=
  match where_ with
  | .error e => some (.error e, w)
  | .ok p => if h : w.fs.Vacant p then some (made p h) else none

section

variable (w : World) (tid : Nat)

/-- A new directory is no name of a file, nor is a new link. -/
theorem newDir_ino (perm : Nat) (i : Nat) (h : (⟨.dir (w.perm perm), tid⟩ : Node).kind = .file i) :
    i < w.fs.nextIno := nomatch h

theorem newTempDir_ino (i : Nat) (h : (⟨.dir (w.perm 0o700), tid⟩ : Node).kind = .file i) :
    i < w.fs.nextIno := newDir_ino w tid 0o700 i h

theorem newSymlink_ino (target : Bytes) (i : Nat)
    (h : (⟨.symlink target, tid⟩ : Node).kind = .file i) : i < w.fs.nextIno := nomatch h

end

/-- What an operation nominally does, if that is computed here. -/
def attempt (tid : Nat) : (op : FsOp) → World → Option (FsOp.Res op × World)
  | .lstat path, w => some (w.fs.lstat path, w)
  | .stat path, w => some (w.fs.stat path, w)
  | .mkdir path perm, w =>
      create w (w.fs.locate path) fun p h =>
        (.ok (), w.setFs (w.fs.add p ⟨.dir (w.perm perm), tid⟩ h (newDir_ino w tid perm)))
  | .openExcl path perm, w =>
      create w (w.fs.locate path) fun p h =>
        (.ok w.fs.nextIno, w.setFs (w.fs.addFile p (w.perm perm) tid h))
  | .openAppend path, w => some (w.fs.fileAt path, w)
  | .readFile path, w => some ((w.fs.fileAt path).map (fun ino => (w.fs.inode ino).data), w)
  | .readNext, w => some (.ok (), w)
  | .write fd data, w =>
      some (.ok (), w.setFs (w.fs.setData fd ((w.fs.inode fd).data ++ data)))
  | .close _, w => some (.ok (), w)
  | .symlink target path, w =>
      if target = [] then some (.error .noent, w)
      else
        create w (w.fs.locate path) fun p h =>
          (.ok (), w.setFs (w.fs.add p ⟨.symlink target, tid⟩ h (newSymlink_ino w tid target)))
  | .createTemp dir pre suf, w =>
      createFresh w (w.fs.locate (tempPath dir (pre ++ digits 0 ++ suf))) fun p h =>
        (.ok (tempPath dir (pre ++ digits 0 ++ suf), w.fs.nextIno),
          w.setFs (w.fs.addFile p (w.perm 0o600) tid h))
  | .mkdirTemp dir pre suf, w =>
      createFresh w (w.fs.locate (tempPath dir (pre ++ digits 0 ++ suf))) fun p h =>
        (.ok (tempPath dir (pre ++ digits 0 ++ suf)),
          w.setFs (w.fs.add p ⟨.dir (w.perm 0o700), tid⟩ h (newTempDir_ino w tid)))
  | .ctxErr, w => some (none, w)
  | _, _ => none

variable {w w' : World} {α : Type} {tid : Nat}

theorem create_sound {where_ : Except Errno Loc} {r : Except Errno α}
    {made : (p : Loc) → w.fs.Vacant p → Except Errno α × World}
    (h : create w where_ made = some (r, w')) :
    Creates w where_ r w' fun p hv r w' => r = (made p hv).1 ∧ w' = (made p hv).2 := by
  unfold create at h
  unfold Creates
  cases where_ with
  | error e =>
      simp only [Option.some.injEq, Prod.mk.injEq] at h
      exact ⟨h.1.symm, h.2.symm⟩
  | ok p =>
      simp only at h ⊢
      split at h
      · rename_i hn
        simp only [Option.some.injEq, Prod.mk.injEq] at h
        exact .inl ⟨hn, h.1.symm, h.2.symm⟩
      · split at h
        · rename_i hv
          simp only [Option.some.injEq] at h
          exact .inr ⟨hv, by rw [h], by rw [h]⟩
        · cases h

theorem createFresh_sound {where_ : Except Errno Loc} {r : Except Errno α}
    {made : (p : Loc) → w.fs.Vacant p → Except Errno α × World}
    (h : createFresh w where_ made = some (r, w')) :
    CreatesFresh w where_ r w' fun p hv r w' => r = (made p hv).1 ∧ w' = (made p hv).2 := by
  unfold createFresh at h
  unfold CreatesFresh
  cases where_ with
  | error e =>
      simp only [Option.some.injEq, Prod.mk.injEq] at h
      exact ⟨h.1.symm, h.2.symm⟩
  | ok p =>
      simp only at h ⊢
      split at h
      · rename_i hv
        simp only [Option.some.injEq] at h
        exact ⟨hv, by rw [h], by rw [h]⟩
      · cases h

theorem attempt_sound {op : FsOp} {r : FsOp.Res op} (h : attempt tid op w = some (r, w')) :
    Nominal tid op w r w' := by
  cases op with
  | lstat path | stat path | openAppend path | readFile path | readNext | close fd | ctxErr
  | write fd data =>
      obtain ⟨hr, hw⟩ := Prod.mk.inj (Option.some.inj h)
      exact ⟨hr.symm, hw.symm⟩
  | mkdir path perm | openExcl path perm => exact create_sound h
  | symlink target path =>
      by_cases ht : target = []
      · have h' : some (Except.error Errno.noent, w) = some (r, w') := by
          rw [← h]
          exact (if_pos ht).symm
        obtain ⟨hr, hw⟩ := Prod.mk.inj (Option.some.inj h')
        exact (if_pos ht).mpr ⟨hr.symm, hw.symm⟩
      · exact (if_neg ht).mpr (create_sound ((if_neg ht).symm.trans h))
  | createTemp dir pre suf | mkdirTemp dir pre suf => exact ⟨0, createFresh_sound h⟩
  | openTrunc | link | listTree | remove | renameDir | tryLock | unlock | snapshot => cases h

/-- `n` steps of a program. -/
def simulate (tid : Nat) {α : Type} : Nat → Sys α → World → Option (Sys α × World)
  | 0, p, w => some (p, w)
  | _ + 1, .ret _, _ => none
  | n + 1, .call op k, w =>
      match attempt tid op w with
      | none => none
      | some (r, w') => simulate tid n (k r) w'
  | n + 1, .iter b body k, w => simulate tid n ((body b).bind (Prog.next body k)) w

theorem simulate_sound {m : Mode} {n : Nat} {R : World → World → Prop} {p q : Sys α}
    (h : simulate tid n p w = some (q, w')) :
    Run (exec m tid) R n p w q w' := by
  induction n generalizing p w with
  | zero =>
      simp only [simulate, Option.some.injEq, Prod.mk.injEq] at h
      obtain ⟨rfl, rfl⟩ := h
      exact .refl
  | succ n ih =>
      cases p with
      | ret a => cases h
      | call op k =>
          simp only [simulate] at h
          split at h
          · cases h
          · rename_i r w'' hr
            exact .own (.call (.inl (attempt_sound hr))) (ih h)
      | iter b body k => exact .own .iter (ih h)

/-- The last step of a computed run. -/
theorem simulate_last {m : Mode} {n : Nat} {p q : Sys α}
    (h : simulate tid (n + 1) p w = some (q, w')) :
    ∃ p' w'', simulate tid n p w = some (p', w'') ∧ Step (exec m tid) p' w'' q w' := by
  induction n generalizing p w with
  | zero =>
      cases p with
      | ret a => cases h
      | call op k =>
          simp only [simulate] at h
          split at h
          · cases h
          · rename_i r w'' hr
            obtain ⟨rfl, rfl⟩ := Prod.mk.inj (Option.some.inj h)
            exact ⟨_, _, rfl, .call (.inl (attempt_sound hr))⟩
      | iter b body k =>
          obtain ⟨rfl, rfl⟩ := Prod.mk.inj (Option.some.inj h)
          exact ⟨_, _, rfl, .iter⟩
  | succ n ih =>
      cases p with
      | ret a => cases h
      | call op k =>
          rw [simulate] at h ⊢
          split at h
          · cases h
          · exact ih h
      | iter b body k => exact ih h

/-- A program with no step left has returned. -/
def result {α : Type} : Sys α → Option α
  | .ret a => some a
  | _ => none

theorem result_eq_some {p : Sys α} {a : α} (h : result p = some a) : p = .ret a := by
  cases p with
  | ret b => rw [result, Option.some.injEq] at h; rw [h]
  | call op k => cases h
  | iter b body k => cases h

end BuilderShim.Posix
