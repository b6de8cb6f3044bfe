/-
  GoLib/OsSpec.lean --- what `MkdirAll` does to a directory that exists, and
  `WriteFile` where there is no file yet.
-/
import BuilderShim.GoLib.Os
import BuilderShim.Posix.RegionOps

set_option autoImplicit false

namespace BuilderShim.Os

open BuilderShim.Filepath
open BuilderShim.Foundation
open BuilderShim.Posix

/-! ## The parent of a path -/

theorem render_concat {rooted : Bool} {parts : List Bytes} {c : Bytes} (hp : parts ≠ []) :
    render rooted (parts ++ [c]) = render rooted parts ++ slash :: c := by
  have hj : joinSlash (parts ++ [c]) = joinSlash parts ++ slash :: c := by
    rw [joinSlash_append hp (by simp)]
    simp [joinSlash]
  cases rooted with
  | true => simp [render, hj]
  | false => simp [render, hj, hp]

/-- The element a path is cut at. -/
theorem dropLast_element {c : Bytes} (hne : c ≠ []) (hs : slash ∉ c) (front : Bytes) :
    ((front ++ c).reverse.dropWhile (· == slash)).dropWhile (· != slash) =
      front.reverse.dropWhile (· != slash) := by
  have hrev : slash ∉ c.reverse := by simpa using hs
  obtain ⟨x, xs, hx⟩ := List.exists_cons_of_ne_nil (l := c.reverse) (by simpa using hne)
  have hxs : x ≠ slash := by
    rintro rfl
    exact hrev (by rw [hx]; exact List.mem_cons_self)
  have hkeep : (front ++ c).reverse.dropWhile (· == slash) = (front ++ c).reverse := by
    rw [List.reverse_append, hx, List.cons_append, List.dropWhile_cons]
    simp [hxs]
  rw [hkeep, List.reverse_append]
  exact dropWhile_ne_slash_append hrev _

theorem parentPath_render {rooted : Bool} {parts : List Bytes} {c : Bytes}
    (h : CleanParts rooted (parts ++ [c])) :
    parentPath (render rooted (parts ++ [c])) =
      if parts = [] ∧ rooted = false then [] else render rooted parts := by
  have hc : c ≠ [] := h.ne_nil c (by simp)
  have hcs : slash ∉ c := h.no_slash c (by simp)
  by_cases hp : parts = []
  · subst hp
    cases rooted with
    | true =>
        have hform : render true ([] ++ [c]) = [slash] ++ c := by simp [render, joinSlash]
        unfold parentPath
        rw [hform, dropLast_element hc hcs]
        decide
    | false =>
        have hform : render false ([] ++ [c]) = [] ++ c := by simp [render, joinSlash]
        unfold parentPath
        rw [hform, dropLast_element hc hcs]
        decide
  · have hform : render rooted (parts ++ [c]) = (render rooted parts ++ [slash]) ++ c := by
      rw [render_concat hp]
      simp
    -- the part before the separator does not end in one itself
    obtain ⟨front, last, hparts⟩ : ∃ front last, parts = front ++ [last] :=
      ⟨parts.dropLast, parts.getLast hp, (List.dropLast_append_getLast hp).symm⟩
    have hlast : last ≠ [] := h.ne_nil last (by simp [hparts])
    have hlasts : slash ∉ last := h.no_slash last (by simp [hparts])
    obtain ⟨pre, hpre⟩ : ∃ pre, render rooted parts = pre ++ last := by
      by_cases hf : front = []
      · subst hf
        rw [hparts]
        cases rooted with
        | true => exact ⟨[slash], by simp [render, joinSlash]⟩
        | false => exact ⟨[], by simp [render, joinSlash]⟩
      · exact ⟨render rooted front ++ [slash], by rw [hparts, render_concat hf]; simp⟩
    obtain ⟨x, xs, hx⟩ := List.exists_cons_of_ne_nil (l := last.reverse) (by simpa using hlast)
    have hxs : x ≠ slash := by
      rintro rfl
      have : slash ∈ last.reverse := by rw [hx]; exact List.mem_cons_self
      exact hlasts (by simpa using this)
    have hrev : (render rooted parts).reverse = x :: (xs ++ pre.reverse) := by
      rw [hpre, List.reverse_append, hx, List.cons_append]
    unfold parentPath
    rw [hform, dropLast_element hc hcs, List.reverse_append, hrev]
    have hback : (x :: (xs ++ pre.reverse)).reverse = render rooted parts := by
      rw [← hrev, List.reverse_reverse]
    simp [hp, hxs, ← hback]

/-! ## A directory that exists -/

section

variable {m : Mode} {tid : Nat} {R G : World → World → Prop} {P : World → Prop}

/-- The path leads to a directory. -/
def Exists (w : World) (path : Bytes) : Prop :=
  ∃ d, w.fs.resolve path = .ok d ∧ w.fs.isDir d = true

theorem Exists.stat {w : World} {path : Bytes} (h : Exists w path) :
    ∃ info, w.fs.stat path = .ok info ∧ info.type = .dir := by
  obtain ⟨d, hd, hdir⟩ := h
  obtain ⟨n, hn, hisdir⟩ := FS.isDir_iff.mp hdir
  refine ⟨(w.fs.content n).info, by simp [FS.stat, hd, hn], ?_⟩
  cases hk : n.kind with
  | dir perm => simp [FS.content, hk, Content.info]
  | file ino => simp [Node.isDir, hk] at hisdir
  | symlink target => simp [Node.isDir, hk] at hisdir

theorem mkdirLast_existing (hrefl : ∀ w, G w w) (hst : Stable R P) {path : Bytes}
    (hdir : ∀ w, P w → Exists w path) (perm : Nat) :
    Triple (exec m tid) R G P (mkdirLast path perm) fun _ w => P w := by
  unfold mkdirLast
  simp only [Prog.bind_eq]
  refine triple_bind (triple_reads (.mkdir path perm) hrefl hst
    (F := fun (r : Except Errno Unit) => ∃ e, r = .error e) ?_) fun r => triple_pure fun hr => ?_
  · intro w r w' hw hE
    rcases exec_mkdir hE with ⟨_, ⟨k, hr⟩, hw'⟩ | h
    · exact ⟨hw', _, hr⟩
    · obtain ⟨d, hd, hisdir⟩ := hdir w hw
      simp only [Nominal] at h
      rcases creates_cases h with ⟨e, _, hr, hw'⟩ | ⟨p, _, _, hr, hw'⟩ | ⟨p, hv, hp, _⟩
      · exact ⟨hw', _, hr⟩
      · exact ⟨hw', _, hr⟩
      · exact absurd hv.free (FS.locate_exists hd hisdir hp)
  · obtain ⟨e, rfl⟩ := hr
    refine triple_bind (triple_reads (.lstat path) hrefl hst (F := fun _ => True)
      fun w r w' _ hE => ⟨(exec_lstat hE).1, trivial⟩) fun r => triple_pure fun _ => ?_
    cases r with
    | error e => exact triple_ret hst fun _ h => h
    | ok info =>
        simp only
        split
        · exact triple_ret hst fun _ h => h
        · exact triple_ret hst fun _ h => h

/-- `MkdirAll` first asks whether the directory is there. -/
theorem stat_existing (hrefl : ∀ w, G w w) (hst : Stable R P) {path : Bytes}
    (hdir : ∀ w, P w → Exists w path) {k : Sys (Except Errno Unit)}
    (hk : m.Faulty → Triple (exec m tid) R G P k fun _ w => P w) :
    Triple (exec m tid) R G P
      ((Sys.stat path).bind fun x => match x with
        | .ok info => if info.type = .dir then Prog.ret (.ok ()) else Prog.ret (.error .notdir)
        | .error _ => k) fun r w => (r = .ok () ∨ m.Faulty) ∧ P w := by
  refine triple_bind (triple_reads (.stat path) hrefl hst
    (F := fun (r : Except Errno FileInfo) => (∃ info, r = .ok info ∧ info.type = .dir) ∨ m.Faulty)
    ?_) fun r => triple_pure fun hr => ?_
  · intro w r w' hw hE
    obtain ⟨hw', hr | ⟨hf, _⟩⟩ := exec_stat hE
    · obtain ⟨info, hinfo, hty⟩ := (hdir w hw).stat
      exact ⟨hw', .inl ⟨info, by rw [hr, hinfo], hty⟩⟩
    · exact ⟨hw', .inr (.inl ⟨_, hf⟩)⟩
  rcases hr with ⟨info, rfl, hty⟩ | hf
  · simp only [hty, if_true]
    exact triple_ret hst fun _ h => ⟨.inl rfl, h⟩
  · cases r with
    | error e => exact triple_post (hk hf) fun _ _ h => ⟨.inr hf, h⟩
    | ok info =>
        simp only
        split
        · exact triple_ret hst fun _ h => ⟨.inr hf, h⟩
        · exact triple_ret hst fun _ h => ⟨.inr hf, h⟩

/-- Where the directory exists already nothing is created; a failure is the
machine's. -/
theorem mkdirAllFrom_existing (hrefl : ∀ w, G w w) (hst : Stable R P) {rooted : Bool}
    {parts : List Bytes} (hclean : CleanParts rooted parts)
    (hdir : ∀ w, P w → Exists w (render rooted parts)) (fuel perm : Nat) :
    Triple (exec m tid) R G P (mkdirAllFrom fuel (render rooted parts) perm) fun r w =>
      (r = .ok () ∨ m.Faulty) ∧ P w := by
  induction fuel generalizing parts with
  | zero => exact stat_existing hrefl hst hdir fun _ => mkdirLast_existing hrefl hst hdir perm
  | succ fuel ih =>
      refine stat_existing hrefl hst hdir fun _ => ?_
      split
      · exact mkdirLast_existing hrefl hst hdir perm
      rename_i hparent
      -- a path with a parent has a last element, and the front of it exists too
      rcases List.eq_nil_or_concat parts with rfl | ⟨front, c, rfl⟩
      · exact absurd (by cases rooted <;> decide) hparent
      rw [List.concat_eq_append] at hclean hdir hparent ⊢
      rw [parentPath_render hclean] at hparent ⊢
      rw [if_neg fun h => hparent (if_pos h)]
      have hfront : ∀ w, P w → Exists w (render rooted front) := by
        intro w hw
        obtain ⟨d, hd, _⟩ := hdir w hw
        exact FS.resolve_front hclean hd
      refine triple_bind (ih hclean.front hfront) fun r => triple_pure fun _ => ?_
      cases r with
      | ok _ => exact mkdirLast_existing hrefl hst hdir perm
      | error e => exact triple_ret hst fun _ h => h

/-! ## Writing a file -/

/-- `WriteFile` where there is no file yet; a directory in its place is an error. -/
theorem writeFile_spec (tid : Nat) {s : Site} {Own : World → Prop} {T : TreeMap}
    (g : Guarded s R G Own) (names : Loc) {c : Bytes} (data : Bytes) (perm : Nat)
      (hnames : ∀ x ∈ names, Name x) (hc : Name c)
    (hdir : T.isDir names) (hplace : T (names ++ [c]) = none ∨ T.isDir (names ++ [c])) :
    Triple (exec m tid) R G (Knows s Own T) (writeFile (s.path (names ++ [c])) data perm) fun r w =>
      match r with
      | .ok () => T (names ++ [c]) = none ∧
          Knows s Own (T.insert (names ++ [c]) (.file (s.perm perm) data)) w
      | .error _ => (m.Faulty ∨ T.isDir (names ++ [c])) ∧ ∃ T', Knows s Own T' w := by
  unfold writeFile
  simp only [Prog.bind_eq]
  refine triple_bind (g.openTrunc hnames hc hdir hplace) fun r => ?_
  cases r with
  | error e => exact triple_ret ((Stable.const _).and (g.stable T)) fun w h => ⟨h.1, T, h.2⟩
  | ok fd =>
      refine triple_pure fun hfree => ?_
      refine triple_bind (g.write (TreeMap.insert_self T _ _)) fun written => ?_
      cases written with
      | error e =>
          have hst := (Stable.const (R := R) m.Faulty).and (Stable.exists fun T' => g.stable T')
          refine triple_bind (g.close hst fd) fun closed => triple_pure fun _ => ?_
          exact triple_ret hst fun w h => ⟨.inl h.1, h.2⟩
      | ok _ =>
          rw [List.nil_append, TreeMap.insert_insert]
          have hst := g.stable_writing (T.insert (names ++ [c]) (.file (s.perm perm) data))
            (names ++ [c]) fd
          refine triple_bind (g.close hst fd) fun closed => triple_pure fun hclosed => ?_
          cases closed with
          | ok _ => exact triple_ret hst fun w h => ⟨hfree, h.1, h.2.toHolds⟩
          | error e =>
              exact triple_ret hst fun w h =>
                ⟨.inl (hclosed.resolve_left (by simp)), _, h.1, h.2.toHolds⟩

end

end BuilderShim.Os
