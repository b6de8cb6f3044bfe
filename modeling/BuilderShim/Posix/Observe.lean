/-
  Posix/Observe.lean --- what a program that only looks would answer now.

  `observe` runs a program in one state, without changing it, as long as it only
  asks for the state of the file system.
-/
import BuilderShim.Posix.Syscall

set_option autoImplicit false

namespace BuilderShim.Posix

open BuilderShim.Foundation

/-- The answer of an operation that only looks. -/
def look : (op : FsOp) → World → Option (FsOp.Res op)
  | .lstat path, w => some (w.fs.lstat path)
  | .stat path, w => some (w.fs.stat path)
  | .readFile path, w => some ((w.fs.fileAt path).map (fun ino => (w.fs.inode ino).data))
  | _, _ => none

def observe {α : Type} : Sys α → World → Option α
  | .ret a, _ => some a
  | .call op k, w =>
      match look op w with
      | none => none
      | some r => observe (k r) w
  | .iter _ _ _, _ => none

theorem look_sound {m : Mode} {tid : Nat} {op : FsOp} {w : World} {r : FsOp.Res op}
    (h : look op w = some r) : exec m tid op w r w := by
  cases op with
  | lstat path | stat path | readFile path =>
      exact .inl ⟨(Option.some.inj h).symm, rfl⟩
  | mkdir | openExcl | openTrunc | openAppend | readNext | write | close | symlink | link
  | createTemp | mkdirTemp | listTree | remove | renameDir | tryLock | unlock | snapshot
  | ctxErr => cases h

/-- On a calm machine the answer is the only one. -/
theorem look_complete {tid : Nat} {op : FsOp} {w w' : World} {r r' : FsOp.Res op}
    (h : look op w = some r) (hE : exec .calm tid op w r' w') : r' = r ∧ w' = w := by
  have hN : Nominal tid op w r' w' := by
    rcases hE with hN | ⟨hf, _⟩ | ⟨hf, _⟩
    · exact hN
    · exact hf.elim
    · exact hf.elim
  cases op with
  | lstat path | stat path | readFile path =>
      exact ⟨hN.1.trans (Option.some.inj h), hN.2⟩
  | mkdir | openExcl | openTrunc | openAppend | readNext | write | close | symlink | link
  | createTemp | mkdirTemp | listTree | remove | renameDir | tryLock | unlock | snapshot
  | ctxErr => cases h

/-- An observed answer is one a run gives. -/
theorem observe_sound {m : Mode} {tid : Nat} {R : World → World → Prop} {α : Type} {p : Sys α}
    {w : World} {a : α} (h : observe p w = some a) :
    ∃ n, Run (exec m tid) R n p w (.ret a) w := by
  induction p generalizing w with
  | ret b =>
      cases h
      exact ⟨0, .refl⟩
  | call op k ih =>
      rw [observe] at h
      split at h
      · cases h
      · rename_i r hr
        obtain ⟨n, hrun⟩ := ih r h
        exact ⟨n + 1, .own (.call (look_sound hr)) hrun⟩
  | iter b body k => cases h

/-- And on a calm machine, with nobody else around, it is the only one. -/
theorem observe_complete {tid n : Nat} {α : Type} {p : Sys α} {w w' : World} {a a' : α}
    (h : observe p w = some a)
    (hrun : Run (exec .calm tid) (fun _ _ => False) n p w (.ret a') w') : a' = a ∧ w' = w := by
  induction p generalizing w n with
  | ret b =>
      cases h
      cases hrun with
      | refl => exact ⟨rfl, rfl⟩
      | env hR _ => exact hR.elim
      | own hstep _ => exact hstep.of_ret.elim
  | call op k ih =>
      rw [observe] at h
      split at h
      · cases h
      · rename_i r hr
        cases hrun with
        | env hR _ => exact hR.elim
        | own hstep rest =>
            cases hstep with
            | call hE =>
                obtain ⟨rfl, rfl⟩ := look_complete hr hE
                exact ih _ h rest
  | iter b body k => cases h

end BuilderShim.Posix
