/-
  Fileutils/WalkOrder.lean --- what the callback of `walkCachedContext` is called with.

  `callbacks` are the entries of a listed tree in the order of `filepath.Walk`,
  without the root and the completion marker.  The callback sees some of them in
  this order, since it may skip directories, and all of them if it never does.
-/
import BuilderShim.Foundation.Trace
import BuilderShim.Fileutils.Receive

set_option autoImplicit false

namespace BuilderShim.Fileutils

open BuilderShim.Filepath
open BuilderShim.Foundation
open BuilderShim.Posix

/-- What the callback is called with at a location, if it is called. -/
def callbackAt (rel : Loc) (content : Content) : Option WalkEntry :=
  if rel = [] ∨ rel = [cacheCompletionMarker] then none
  else some ⟨joinSlash rel, content.info, linkName content⟩

/-- The same for everything in a tree, from the location of the tree on. -/
def callbacks (t : Tree) (rel : Loc) : List WalkEntry :=
  (t.walk rel).filterMap fun e => callbackAt e.1 e.2

def callbacksIn (children : List (Bytes × Tree)) (rel : Loc) : List WalkEntry :=
  (Tree.walkIn children rel).filterMap fun e => callbackAt e.1 e.2

/-- The calls of the callback among the operations, with what it returned. -/
def visits (ops : List RecvSig.Answered) : List (WalkEntry × Verdict) :=
  ops.filterMap fun
    | ⟨.inr (.visit entry), v⟩ => some (entry, v)
    | _ => none

/-- The entries the callback was called with. -/
def visited (ops : List RecvSig.Answered) : List WalkEntry := (visits ops).map Prod.fst

/-- The callback never stopped the walk nor skipped anything. -/
def Proceeds (ops : List RecvSig.Answered) : Prop := ∀ e ∈ visits ops, e.2 = .proceed

section

variable {cacheDir path : Bytes} {rooted : Bool} {parts : List Bytes} {rel : Loc}
variable {ops before after : List RecvSig.Answered}

theorem visits_append : visits (before ++ after) = visits before ++ visits after :=
  List.filterMap_append

theorem visited_append : visited (before ++ after) = visited before ++ visited after := by
  unfold visited
  rw [visits_append, List.map_append]

theorem proceeds_append : Proceeds (before ++ after) ↔ Proceeds before ∧ Proceeds after := by
  unfold Proceeds
  rw [visits_append]
  exact List.forall_mem_append

theorem callbacks_dir (perm : Nat) (children : List (Bytes × Tree)) (rel : Loc) :
    callbacks (.dir perm children) rel =
      (callbackAt rel (.dir perm)).toList ++ callbacksIn children rel := by
  unfold callbacks callbacksIn
  rw [Tree.walk, List.filterMap_cons]
  cases callbackAt rel (.dir perm) <;> rfl

theorem callbacks_leaf {t : Tree} (h : t.walk rel = [(rel, t.content)]) :
    callbacks t rel = (callbackAt rel t.content).toList := by
  unfold callbacks
  rw [h, List.filterMap_cons]
  cases callbackAt rel t.content <;> rfl

theorem callbacksIn_cons (name : Bytes) (t : Tree) (children : List (Bytes × Tree)) (rel : Loc) :
    callbacksIn ((name, t) :: children) rel =
      callbacks t (rel ++ [name]) ++ callbacksIn children rel := by
  unfold callbacks callbacksIn
  rw [Tree.walkIn, List.filterMap_append]

/-! ## The callback of the walk -/

theorem isSupportedCacheEntry_info (content : Content) :
    isSupportedCacheEntry content.info = true := by
  cases content <;> rfl

/-- The marker is the only entry with its name. -/
theorem joinSlash_eq_marker (hrel : ∀ x ∈ rel, Name x) :
    joinSlash rel = cacheCompletionMarker ↔ rel = [cacheCompletionMarker] := by
  have hmarker : joinSlash [cacheCompletionMarker] = cacheCompletionMarker := by
    simp [joinSlash]
  constructor
  · intro h
    refine joinSlash_injective (fun x hx => ⟨(hrel x hx).no_slash, (hrel x hx).ne_nil⟩) ?_
      (h.trans hmarker.symm)
    intro x hx
    rw [List.mem_singleton.mp hx]
    decide
  · intro h
    rw [h, hmarker]

theorem joinSlash_ne_dot (hrel : ∀ x ∈ rel, Name x) : joinSlash rel ≠ dot := by
  intro h
  by_cases hne : rel = []
  · rw [hne] at h
    exact absurd h (by decide)
  · have hsplit := split_joinSlash (fun x hx => (hrel x hx).no_slash) hne
    rw [h] at hsplit
    have hmem : dot ∈ rel := by
      rw [← hsplit]
      decide
    exact (hrel dot hmem).ne_dot rfl

theorem walkCachedEntry_eq (hparts : CleanParts rooted parts) (hrel : ∀ x ∈ rel, Name x)
    (content : Content) :
    walkCachedEntry (render rooted parts) (render rooted (parts ++ rel)) content =
      match callbackAt rel content with
      | none => .ret .proceed
      | some entry => Recv.visit entry := by
  unfold walkCachedEntry callbackAt
  by_cases hne : rel = []
  · have hself : Filepath.rel (render rooted parts) (render rooted (parts ++ rel)) = some dot := by
      rw [hne, List.append_nil, Filepath.rel, if_pos rfl]
    rw [hself, if_pos (.inl hne)]
    exact if_pos (.inl rfl)
  · rw [rel_render hparts hrel hne]
    by_cases hmarker : rel = [cacheCompletionMarker]
    · rw [if_pos (.inr hmarker)]
      exact if_pos (.inr ((joinSlash_eq_marker hrel).mpr hmarker))
    · have hother : ¬ (joinSlash rel = dot ∨ joinSlash rel = cacheCompletionMarker) :=
        not_or.mpr ⟨joinSlash_ne_dot hrel, (joinSlash_eq_marker hrel).not.mpr hmarker⟩
      rw [if_neg (not_or.mpr ⟨hne, hmarker⟩)]
      simp only [hother, isSupportedCacheEntry_info, if_false, Bool.true_eq_false]

/-! ## The walk -/

/-- A part of the walk keeps to the order: what it has visited is part of `expected`, and all
of it once it has returned, if the callback never skips anything. -/
structure Keeps (expected : List WalkEntry) (ops : List RecvSig.Answered) (q : Recv Verdict) :
    Prop where
  sub : (visited ops).Sublist expected
  all : ∀ v, q = .ret v → Proceeds ops → v = .proceed ∧ visited ops = expected

variable {q p : Recv Verdict} {expected rest : List WalkEntry}

theorem keeps_entry (hparts : CleanParts rooted parts) (hrel : ∀ x ∈ rel, Name x)
    {content : Content}
    (h : Trace (walkCachedEntry (render rooted parts) (render rooted (parts ++ rel)) content)
      ops q) : Keeps (callbackAt rel content).toList ops q := by
  rw [walkCachedEntry_eq hparts hrel] at h
  cases hat : callbackAt rel content with
  | none =>
      rw [hat] at h
      obtain ⟨rfl, rfl⟩ := h.of_ret
      refine ⟨.slnil, fun v hv _ => ?_⟩
      cases hv
      exact ⟨rfl, rfl⟩
  | some entry =>
      rw [hat] at h
      rcases h.of_perform with ⟨rfl, rfl⟩ | ⟨v, rfl, rfl⟩
      · exact ⟨List.nil_sublist _, nofun⟩
      · refine ⟨List.Sublist.refl _, fun v' hv' hgo => ?_⟩
        cases hv'
        exact ⟨hgo (entry, v) (List.mem_singleton_self _), rfl⟩

/-- A part of the walk that returns before its end. -/
theorem Keeps.stop {v v' : Verdict} (h : Keeps expected ops (.ret v)) (hv : v ≠ .proceed) :
    Keeps (expected ++ rest) ops (.ret v') :=
  ⟨h.sub.trans (List.sublist_append_left _ _), fun _ _ hgo => absurd (h.all v rfl hgo).1 hv⟩

/-- One part of the walk after the other. -/
theorem Keeps.append {expected' : List WalkEntry} {v : Verdict} (h : Keeps expected before (.ret v))
    (h' : Keeps expected' after q) :
    Keeps (expected ++ expected') (before ++ after) q := by
  refine ⟨?_, fun v' hv' hgo => ?_⟩
  · rw [visited_append]
    exact h.sub.append h'.sub
  · obtain ⟨hbefore, hafter⟩ := proceeds_append.mp hgo
    obtain ⟨hv, hall⟩ := h'.all v' hv' hafter
    refine ⟨hv, ?_⟩
    rw [visited_append, (h.all v rfl hbefore).2, hall]

/-- A part of the walk that has not returned. -/
theorem Keeps.unfinished (h : Keeps expected ops p) (hq : ∀ v, q ≠ .ret v) :
    Keeps (expected ++ rest) ops q :=
  ⟨h.sub.trans (List.sublist_append_left _ _), fun v hv => absurd hv (hq v)⟩

/-- One part of the walk, and then another if the callback does not stop it there. -/
theorem Keeps.bind {f : Verdict → Recv Verdict} (h : Trace (p.bind f) ops q)
    (hp : ∀ {ops : List RecvSig.Answered} {q : Recv Verdict}, Trace p ops q → Keeps expected ops q)
    (hgo : ∀ {ops : List RecvSig.Answered} {q : Recv Verdict},
      Trace (f .proceed) ops q → Keeps rest ops q)
    (hstop : ∀ v, v ≠ .proceed → (∃ v', f v = .ret v') ∨ f v = f .proceed) :
    Keeps (expected ++ rest) ops q := by
  rcases h.of_bind with ⟨p', htrace, hq⟩ | ⟨v, before, after, rfl, hfirst, hsecond⟩
  · exact (hp htrace).unfinished hq
  · by_cases hv : v = .proceed
    · subst hv
      exact (hp hfirst).append (hgo hsecond)
    · rcases hstop v hv with ⟨v', hret⟩ | hsame
      · rw [hret] at hsecond
        obtain ⟨rfl, rfl⟩ := hsecond.of_ret
        rw [List.append_nil]
        exact (hp hfirst).stop hv
      · rw [hsame] at hsecond
        exact (hp hfirst).append (hgo hsecond)

theorem name_append {name : Bytes} (hrel : ∀ x ∈ rel, Name x) (hname : Name name) :
    ∀ x ∈ rel ++ [name], Name x :=
  List.forall_mem_append.mpr ⟨hrel, fun _ hx => List.mem_singleton.mp hx ▸ hname⟩

theorem join_name (hparts : CleanParts rooted parts) (hrel : ∀ x ∈ rel, Name x) {name : Bytes}
    (hname : Name name) :
    join (render rooted (parts ++ rel)) name = render rooted (parts ++ (rel ++ [name])) := by
  have hone := join_render [name] (hparts.append hrel)
    (fun x hx => List.mem_singleton.mp hx ▸ hname) (List.cons_ne_nil _ _)
  rw [List.append_assoc] at hone
  simpa [joinSlash] using hone

mutual

/-- The walk of a tree keeps to the order of the tree. -/
theorem walkTree_keeps_order (hparts : CleanParts rooted parts) (t : Tree) (ht : t.WF) (rel : Loc)
    (hrel : ∀ x ∈ rel, Name x) (ops : List RecvSig.Answered) (q : Recv Verdict)
    (h : Trace (walkTree (render rooted parts) t (render rooted (parts ++ rel))) ops q) :
    Keeps (callbacks t rel) ops q := by
  cases t with
  | file perm data =>
      rw [walkTree] at h
      rw [callbacks_leaf (by rfl)]
      exact keeps_entry hparts hrel h
  | symlink target =>
      rw [walkTree] at h
      rw [callbacks_leaf (by rfl)]
      exact keeps_entry hparts hrel h
  | dir perm children =>
      rw [walkTree] at h
      rw [callbacks_dir]
      refine Keeps.bind h (fun htrace => keeps_entry hparts hrel htrace)
        (fun htrace => walkEntries_keeps_order hparts children ht rel hrel _ _ htrace) ?_
      intro v hv
      cases v with
      | proceed => exact absurd rfl hv
      | skipDir | skipAll | fail e => exact .inl ⟨_, rfl⟩

theorem walkEntries_keeps_order (hparts : CleanParts rooted parts)
    (children : List (Bytes × Tree)) (hchildren : Tree.WFIn children) (rel : Loc)
    (hrel : ∀ x ∈ rel, Name x) (ops : List RecvSig.Answered) (q : Recv Verdict)
    (h : Trace (walkEntries (render rooted parts) children (render rooted (parts ++ rel))) ops q) :
    Keeps (callbacksIn children rel) ops q := by
  cases children with
  | nil =>
      rw [walkEntries] at h
      obtain ⟨rfl, rfl⟩ := h.of_ret
      refine ⟨.slnil, fun v hv _ => ?_⟩
      cases hv
      exact ⟨rfl, rfl⟩
  | cons child children =>
      obtain ⟨name, t⟩ := child
      obtain ⟨hname, _, ht, hrest⟩ := hchildren
      rw [walkEntries, join_name hparts hrel hname] at h
      rw [callbacksIn_cons]
      refine Keeps.bind h
        (fun htrace => walkTree_keeps_order hparts t ht _ (name_append hrel hname) _ _ htrace)
        (fun htrace => walkEntries_keeps_order hparts children hrest rel hrel _ _ htrace) ?_
      intro v hv
      cases v with
      | proceed => exact absurd rfl hv
      | skipDir =>
          -- a directory that is skipped is followed by the next entry, a file ends the directory
          by_cases hdir : t.content.isDir = true
          · exact .inr (if_pos hdir)
          · exact .inl ⟨_, if_neg hdir⟩
      | skipAll | fail e => exact .inl ⟨_, rfl⟩

end

/-! ## A walk that is never stopped -/

/-- The walk can go through to its end. -/
def Completes (expected : List WalkEntry) (p : Recv Verdict) : Prop :=
  ∃ ops, Trace p ops (.ret .proceed) ∧ Proceeds ops ∧ visited ops = expected

theorem Completes.bind {f : Verdict → Recv Verdict} (h : Completes expected p)
    (h' : Completes rest (f .proceed)) :
    Completes (expected ++ rest) (p.bind f) := by
  obtain ⟨before, htrace, hgo, hvisited⟩ := h
  obtain ⟨after, htrace', hgo', hvisited'⟩ := h'
  refine ⟨before ++ after, htrace.bind htrace', proceeds_append.mpr ⟨hgo, hgo'⟩, ?_⟩
  rw [visited_append, hvisited, hvisited']

theorem completes_entry (hparts : CleanParts rooted parts) (hrel : ∀ x ∈ rel, Name x)
    (content : Content) :
    Completes (callbackAt rel content).toList
      (walkCachedEntry (render rooted parts) (render rooted (parts ++ rel)) content) := by
  rw [walkCachedEntry_eq hparts hrel]
  cases callbackAt rel content with
  | none => exact ⟨[], .refl _, fun _ he => absurd he List.not_mem_nil, rfl⟩
  | some entry =>
      refine ⟨[⟨.inr (.visit entry), .proceed⟩], .call (.refl _), ?_, rfl⟩
      intro e he
      rw [List.mem_singleton.mp he]

mutual

theorem walkTree_completes (hparts : CleanParts rooted parts) (t : Tree) (ht : t.WF) (rel : Loc)
    (hrel : ∀ x ∈ rel, Name x) :
    Completes (callbacks t rel)
      (walkTree (render rooted parts) t (render rooted (parts ++ rel))) := by
  cases t with
  | file perm data =>
      rw [walkTree, callbacks_leaf (by rfl)]
      exact completes_entry hparts hrel _
  | symlink target =>
      rw [walkTree, callbacks_leaf (by rfl)]
      exact completes_entry hparts hrel _
  | dir perm children =>
      rw [walkTree, callbacks_dir]
      exact (completes_entry hparts hrel _).bind
        (walkEntries_completes hparts children ht rel hrel)

theorem walkEntries_completes (hparts : CleanParts rooted parts)
    (children : List (Bytes × Tree)) (hchildren : Tree.WFIn children) (rel : Loc)
    (hrel : ∀ x ∈ rel, Name x) :
    Completes (callbacksIn children rel)
      (walkEntries (render rooted parts) children (render rooted (parts ++ rel))) := by
  cases children with
  | nil =>
      rw [walkEntries]
      exact ⟨[], .refl _, fun _ he => absurd he List.not_mem_nil, rfl⟩
  | cons child children =>
      obtain ⟨name, t⟩ := child
      obtain ⟨hname, _, ht, hrest⟩ := hchildren
      rw [walkEntries, callbacksIn_cons, join_name hparts hrel hname]
      exact (walkTree_completes hparts t ht _ (name_append hrel hname)).bind
        (walkEntries_completes hparts children hrest rel hrel)

end

end

end BuilderShim.Fileutils
