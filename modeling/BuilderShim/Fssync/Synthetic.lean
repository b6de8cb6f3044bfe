/-
  Fssync/Synthetic.lean --- `syntheticDockerfileWalker` (pkg/fssync/walk.go).

  The walker stands between the walk of the cached context and the callback `fn` of
  `FS.Walk`: it calls `fn` for the Dockerfile inputs of the request before the first
  cached entry whose path is greater.  `fn` may answer what it likes, and carries a
  state of its own.
-/
import BuilderShim.Fssync.Sender
import BuilderShim.Fileutils.WalkOrder

set_option autoImplicit false

namespace BuilderShim.Fssync

open BuilderShim.Fileutils
open BuilderShim.Posix

structure SyntheticDockerfileEntry where
  path : Bytes
  data : Bytes
  deriving DecidableEq

/-- The files `newSyntheticDockerfileWalker` knows of. -/
def syntheticFiles (proxy : Proxy) : List SyntheticDockerfileEntry :=
  [⟨syntheticDockerfile, proxy.dockerfile⟩, ⟨syntheticDockerignore, proxy.dockerignore⟩]

/-- `newSyntheticDockerfileWalker`: the entries of the walker, before any is emitted. -/
def newSyntheticDockerfileWalker (proxy : Option Proxy) (requested : List Bytes) :
    List SyntheticDockerfileEntry :=
  match proxy with
  | none => []
  | some proxy =>
      let files := (syntheticFiles proxy).filter fun file =>
        decide (file.path ∈ requested) && !file.data.isEmpty
      if files = [] then [] else ⟨dockerfileStaging, []⟩ :: files

/-- What `emit` calls `fn` with. -/
def SyntheticDockerfileEntry.emit (entry : SyntheticDockerfileEntry) : WalkEntry :=
  if entry.path = dockerfileStaging then ⟨dockerfileStaging, ⟨.dir, 0o755, 0⟩, []⟩
  else ⟨entry.path, ⟨.regular, 0o644, entry.data.length⟩, []⟩

theorem emit_name (entry : SyntheticDockerfileEntry) : entry.emit.name = entry.path := by
  unfold SyntheticDockerfileEntry.emit
  split
  · rename_i h
    exact h.symm
  · rfl

/-- The walker: the entries not emitted yet, and the state of `fn`. -/
structure SyntheticDockerfileWalker (σ : Type) where
  entries : List SyntheticDockerfileEntry
  state : σ

namespace SyntheticDockerfileWalker

variable {σ : Type} (fn : σ → WalkEntry → Verdict × σ)

/-- The loop of `Walk` and `Finish`: entries are emitted while `more` says so, and one that
`fn` does not take is not taken off. -/
def emitWhile (more : SyntheticDockerfileEntry → Bool) :
    List SyntheticDockerfileEntry → σ → Verdict × SyntheticDockerfileWalker σ
  | [], s => (.proceed, ⟨[], s⟩)
  | entry :: rest, s =>
      if more entry then
        match fn s entry.emit with
        | (.proceed, s') => emitWhile more rest s'
        | (v, s') => (v, ⟨entry :: rest, s'⟩)
      else (.proceed, ⟨entry :: rest, s⟩)

def walk (w : SyntheticDockerfileWalker σ) (e : WalkEntry) :
    Verdict × SyntheticDockerfileWalker σ :=
  match emitWhile fn (fun entry => decide (entry.path < e.name)) w.entries w.state with
  | (.proceed, w') => ((fn w'.state e).1, { w' with state := (fn w'.state e).2 })
  | (v, w') => (v, w')

def finish (w : SyntheticDockerfileWalker σ) : Verdict × SyntheticDockerfileWalker σ :=
  emitWhile fn (fun _ => true) w.entries w.state

/-- The walker after a list of visits. -/
def walks (w : SyntheticDockerfileWalker σ) (visited : List WalkEntry) :
    SyntheticDockerfileWalker σ :=
  visited.foldl (fun w e => (w.walk fn e).2) w

end SyntheticDockerfileWalker

/-- A callback that notes what it is called with, and answers anything. -/
def noting (answer : List WalkEntry → WalkEntry → Verdict) (calls : List WalkEntry)
    (e : WalkEntry) : Verdict × List WalkEntry :=
  (answer calls e, calls ++ [e])

/-! ## What the callback may be called with -/

section

variable {answer : List WalkEntry → WalkEntry → Verdict} {P : WalkEntry → Prop}

namespace SyntheticDockerfileWalker

/-- All that was handed on, and will be, satisfies `P`. -/
structure Hands (P : WalkEntry → Prop) (w : SyntheticDockerfileWalker (List WalkEntry)) : Prop where
  entries : ∀ entry ∈ w.entries, P entry.emit
  calls : ∀ e ∈ w.state, P e

theorem Hands.emitWhile {more : SyntheticDockerfileEntry → Bool}
    {entries : List SyntheticDockerfileEntry} {calls : List WalkEntry}
    (h : Hands P ⟨entries, calls⟩) :
    Hands P (emitWhile (noting answer) more entries calls).2 := by
  induction entries generalizing calls with
  | nil => exact h
  | cons entry rest ih =>
      obtain ⟨hentry, hrest⟩ := List.forall_mem_cons.mp h.entries
      have hcalls : ∀ e ∈ calls ++ [entry.emit], P e :=
        List.forall_mem_append.mpr ⟨h.calls, List.forall_mem_singleton.mpr hentry⟩
      unfold SyntheticDockerfileWalker.emitWhile
      split
      · unfold noting
        split
        · rename_i heq
          obtain ⟨_, rfl⟩ := Prod.mk.inj heq
          exact ih ⟨hrest, hcalls⟩
        · rename_i heq
          obtain ⟨_, rfl⟩ := Prod.mk.inj heq
          exact ⟨h.entries, hcalls⟩
      · exact h

theorem Hands.walk {w : SyntheticDockerfileWalker (List WalkEntry)} (h : Hands P w) {e : WalkEntry}
    (he : P e) : Hands P (w.walk (noting answer) e).2 := by
  have hemitted : Hands P (SyntheticDockerfileWalker.emitWhile (noting answer)
      (fun entry => decide (entry.path < e.name)) w.entries w.state).2 := h.emitWhile
  unfold SyntheticDockerfileWalker.walk
  split
  · rename_i w' heq
    rw [heq] at hemitted
    exact ⟨hemitted.entries,
      List.forall_mem_append.mpr ⟨hemitted.calls, List.forall_mem_singleton.mpr he⟩⟩
  · rename_i heq
    rw [heq] at hemitted
    exact hemitted

theorem Hands.walks {w : SyntheticDockerfileWalker (List WalkEntry)} (h : Hands P w)
    {visited : List WalkEntry} (hvisited : ∀ e ∈ visited, P e) :
    Hands P (w.walks (noting answer) visited) := by
  induction visited generalizing w with
  | nil => exact h
  | cons e visited ih =>
      obtain ⟨he, hrest⟩ := List.forall_mem_cons.mp hvisited
      exact ih (h.walk he) hrest

end SyntheticDockerfileWalker

/-- The entries of the walker are the staging directory and files of the proxy. -/
theorem mem_newSyntheticDockerfileWalker {proxy : Option Proxy} {requested : List Bytes}
    {entry : SyntheticDockerfileEntry} (h : entry ∈ newSyntheticDockerfileWalker proxy requested) :
    ∃ p, proxy = some p ∧ (entry = ⟨dockerfileStaging, []⟩ ∨ entry ∈ syntheticFiles p) := by
  unfold newSyntheticDockerfileWalker at h
  cases proxy with
  | none => exact absurd h List.not_mem_nil
  | some p =>
      refine ⟨p, rfl, ?_⟩
      dsimp only at h
      split at h
      · exact absurd h List.not_mem_nil
      · rcases List.mem_cons.mp h with rfl | h
        · exact .inl rfl
        · exact .inr (List.mem_filter.mp h).1

end

end BuilderShim.Fssync
