/-
  Fileutils/UnpackSpec.lean --- `unpackTar` keeps to its destination and makes of
  it what `extract` says.

  Every function of the unpacking code has one specification here: run in a
  region that is its own (`Guarded`), all its steps are allowed there, and when
  it returns the contents are those of the abstract operation; it fails only
  where that is refused, or on a faulty machine.
-/
import BuilderShim.GoLib.OsSpec
import BuilderShim.Fileutils.Extract

set_option autoImplicit false

namespace BuilderShim.Fileutils

open BuilderShim.Filepath
open BuilderShim.Foundation
open BuilderShim.Posix

/-- What a function that should turn the contents into `o` has done when it returns. -/
def Outcome {α : Type} (m : Mode) (s : Site) (Own : World → Prop) (o : Option TreeMap)
    (r : Except Err α) (w : World) : Prop :=
  match r with
  | .ok _ => ∃ T, o = some T ∧ Knows s Own T w
  | .error _ => (o = none ∨ m.Faulty) ∧ ∃ T, Knows s Own T w

section

variable {s : Site} {R G : World → World → Prop} {Own : World → Prop} {m : Mode} {tid : Nat}
variable {T : TreeMap} {α : Type}

variable {w : World}

theorem outcome_ok {a : α} (h : Knows s Own T w) :
    Outcome m s Own (some T) (.ok a) w :=
  ⟨T, rfl, h⟩

variable {e : Err}

theorem outcome_refused (h : Knows s Own T w) :
    Outcome (α := α) m s Own none (.error e) w :=
  ⟨.inl rfl, T, h⟩

variable {o : Option TreeMap}

theorem outcome_faulty (hm : m.Faulty) (h : Knows s Own T w) :
    Outcome (α := α) m s Own o (.error e) w :=
  ⟨.inr hm, T, h⟩

/-- A failure, with the contents it leaves, is passed on as it is. -/
theorem triple_fails (g : Guarded s R G Own) :
    Triple (exec m tid) R G (fun w => (o = none ∨ m.Faulty) ∧ ∃ T, Knows s Own T w)
      (Prog.ret (.error e)) (Outcome (α := α) m s Own o) :=
  triple_ret ((Stable.const _).and (Stable.exists fun T => g.stable T)) fun _ h => h

/-- Continue after a function with a known outcome: its failure is passed on. -/
theorem outcome_bind (g : Guarded s R G Own) {P : World → Prop} {p : Sys (Except Err Unit)}
    {f : Except Err Unit → Sys (Except Err α)} {o' : Option TreeMap}
    (hp : Triple (exec m tid) R G P p (Outcome m s Own o))
    (herr : ∀ e, f (.error e) = .ret (.error e)) (hnone : o = none → o' = none)
    (hok : ∀ T, o = some T → Triple (exec m tid) R G (Knows s Own T) (f (.ok ()))
      (Outcome m s Own o')) :
    Triple (exec m tid) R G P (p.bind f) (Outcome m s Own o') := by
  refine triple_bind hp fun r => ?_
  cases r with
  | ok u =>
      refine triple_exists fun T => ?_
      exact triple_pure fun ho => hok T ho
  | error e =>
      rw [herr e]
      exact triple_pre (triple_fails g) fun w h => ⟨h.1.imp_left hnone, h.2⟩

/-! ## Paths -/

variable {names : List Bytes} {c : Bytes}

theorem join_path {s : Site} (hs : CleanParts s.rooted s.parts) (hnames : ∀ x ∈ names, Name x)
    (hc : Name c) :
    join (s.path names) c = s.path (names ++ [c]) := by
  have h := join_render [c] (hs.append hnames) (by simpa using hc) (by simp)
  have hj : joinSlash [c] = c := by simp [joinSlash]
  rw [hj] at h
  rw [Site.path, h, Site.path, List.append_assoc]

theorem rel_path {s : Site} (hs : CleanParts s.rooted s.parts) (hnames : ∀ x ∈ names, Name x)
    (hne : names ≠ []) :
    rel (s.path []) (s.path names) = some (joinSlash names) := by
  unfold Site.path
  rw [List.append_nil]
  exact rel_render hs hnames hne

/-- The components `ensurePathParent` goes through: the names of the parents, or
a single dot when there are none. -/
theorem split_dir_path (hnames : ∀ x ∈ names, Name x) (hc : Name c) :
    split (dir (joinSlash (names ++ [c]))) = if names = [] then [dot] else names := by
  rw [dir_joinSlash hnames hc]
  by_cases hn : names = []
  · subst hn
    decide
  · rw [if_neg hn, render_names hn]
    exact split_joinSlash (fun x hx => (hnames x hx).no_slash) hn

/-! ## Parents -/

theorem names_concat (hnames : ∀ x ∈ names, Name x) (hc : Name c) : ∀ x ∈ names ++ [c], Name x := by
  intro x hx
  rcases List.mem_append.mp hx with hx | hx
  · exact hnames x hx
  · rw [List.mem_singleton.mp hx]
    exact hc

theorem ensureComponents_spec (g : Guarded s R G Own) (hs : CleanParts s.rooted s.parts)
    {done : List Bytes} (hdone : ∀ x ∈ done, Name x) (hnames : ∀ x ∈ names, Name x)
    (hdir : T.isDir done) :
    Triple (exec m tid) R G (Knows s Own T) (ensureComponents (s.path done) names)
      (Outcome m s Own (addParents s.umask T done names)) := by
  induction names generalizing T done with
  | nil => exact triple_ret (g.stable T) fun w hw => outcome_ok hw
  | cons c names ih =>
      have hc : Name c := hnames c List.mem_cons_self
      have hrest : ∀ x ∈ names, Name x := fun x hx => hnames x (List.mem_cons_of_mem _ hx)
      have hnext : ∀ x ∈ done ++ [c], Name x := names_concat hdone hc
      simp only [ensureComponents, hc.ne_dot, if_false, join_path hs hdone hc, Prog.bind_eq]
      refine triple_bind (g.lstat hdone hc hdir) fun r => triple_pure fun hr => ?_
      cases r with
      | ok info =>
          obtain ⟨ct, hT, rfl⟩ := hr
          cases ct with
          | dir perm =>
              simp only [addParents, hT]
              exact ih hnext hrest ⟨perm, hT⟩
          | file perm data =>
              simp only [addParents, hT]
              exact triple_ret (g.stable T) fun w hw => outcome_refused hw
          | symlink target =>
              simp only [addParents, hT]
              exact triple_ret (g.stable T) fun w hw => outcome_refused hw
      | error e =>
          rcases hr with ⟨rfl, hT⟩ | ⟨hne, hf⟩
          · simp only [addParents, hT]
            refine triple_bind (g.mkdir hdone hc hdir hT) fun r => ?_
            cases r with
            | ok _ => exact ih hnext hrest ⟨_, TreeMap.insert_self _ _ _⟩
            | error e =>
                exact triple_ret (g.stable_created T _ (.error e)) fun w hw =>
                  outcome_faulty hw.1 hw.2
          · split
            · rename_i h
              exact absurd (Except.error.inj h) hne
            · exact triple_ret (g.stable T) fun w hw => outcome_faulty hf hw
            · rename_i h
              cases h

theorem ensurePathParent_spec (g : Guarded s R G Own) (hs : CleanParts s.rooted s.parts)
    (hnames : ∀ x ∈ names, Name x) (hc : Name c) (hroot : T.isDir []) :
    Triple (exec m tid) R G (Knows s Own T) (ensurePathParent (s.path []) (s.path (names ++ [c])))
      (Outcome m s Own (addParents s.umask T [] names)) := by
  have hall := names_concat hnames hc
  unfold ensurePathParent
  rw [rel_path hs hall (by simp)]
  simp only [isLocal_joinSlash (names ++ [c]) (by simp) hall, Bool.true_eq_false, if_false]
  rw [split_dir_path hnames hc]
  by_cases hn : names = []
  · subst hn
    simp only [if_true, ensureComponents, addParents]
    exact triple_ret (g.stable T) fun w hw => outcome_ok hw
  · rw [if_neg hn]
    exact ensureComponents_spec g hs (by simp) hnames hroot

theorem ensureNewPath_spec (g : Guarded s R G Own) (hs : CleanParts s.rooted s.parts)
    (hnames : ∀ x ∈ names, Name x) (hc : Name c) (hroot : T.isDir []) :
    Triple (exec m tid) R G (Knows s Own T) (ensureNewPath (s.path []) (s.path (names ++ [c])))
      (Outcome m s Own (newPath s.umask T (names ++ [c]))) := by
  unfold ensureNewPath
  simp only [Prog.bind_eq]
  refine outcome_bind g (ensurePathParent_spec g hs hnames hc hroot) (fun e => rfl) ?_ ?_
  · intro hnone
    simp [newPath, hnone]
  intro T' hT'
  have hdir : T'.isDir names := by simpa using addParents_isDir hT' hroot
  have hnew : newPath s.umask T (names ++ [c]) =
      if T' (names ++ [c]) = none then some T' else none := by
    simp [newPath, hT']
  rw [hnew]
  refine triple_bind (g.lstat hnames hc hdir) fun r => triple_pure fun hr => ?_
  cases r with
  | ok info =>
      obtain ⟨ct, hct, _⟩ := hr
      rw [if_neg (by simp [hct])]
      exact triple_ret (g.stable T') fun w hw => outcome_refused hw
  | error e =>
      rcases hr with ⟨rfl, hfree⟩ | ⟨hne, hf⟩
      · rw [if_pos hfree]
        exact triple_ret (g.stable T') fun w hw => outcome_ok hw
      · split
        · rename_i h
          cases h
        · rename_i h
          exact absurd (Except.error.inj h) hne
        · exact triple_ret (g.stable T') fun w hw => outcome_faulty hf hw

theorem ensureDirectory_spec (g : Guarded s R G Own) (hs : CleanParts s.rooted s.parts)
    (hnames : ∀ x ∈ names, Name x) (hc : Name c) (hroot : T.isDir []) :
    Triple (exec m tid) R G (Knows s Own T) (ensureDirectory (s.path []) (s.path (names ++ [c])))
      (Outcome m s Own (addDirectory s.umask T (names ++ [c]))) := by
  unfold ensureDirectory
  simp only [Prog.bind_eq]
  refine outcome_bind g (ensurePathParent_spec g hs hnames hc hroot) (fun e => rfl) ?_ ?_
  · intro hnone
    simp [addDirectory, hnone]
  intro T' hT'
  have hdir : T'.isDir names := by simpa using addParents_isDir hT' hroot
  simp only [addDirectory, List.dropLast_concat, hT']
  refine triple_bind (g.lstat hnames hc hdir) fun r => triple_pure fun hr => ?_
  cases r with
  | ok info =>
      obtain ⟨ct, hct, rfl⟩ := hr
      cases ct with
      | dir perm =>
          simp only [hct]
          exact triple_ret (g.stable T') fun w hw => outcome_ok hw
      | file perm data =>
          simp only [hct]
          exact triple_ret (g.stable T') fun w hw => outcome_refused hw
      | symlink target =>
          simp only [hct]
          exact triple_ret (g.stable T') fun w hw => outcome_refused hw
  | error e =>
      rcases hr with ⟨rfl, hfree⟩ | ⟨hne, hf⟩
      · simp only [hfree]
        refine triple_bind (g.mkdir hnames hc hdir hfree) fun r => ?_
        cases r with
        | ok _ => exact triple_ret (g.stable_created T' _ (.ok ())) fun w hw => outcome_ok hw
        | error e =>
            exact triple_ret (g.stable_created T' _ (.error e)) fun w hw =>
              outcome_faulty hw.1 hw.2
      · split
        · rename_i h
          exact absurd (Except.error.inj h) hne
        · exact triple_ret (g.stable T') fun w hw => outcome_faulty hf hw
        · rename_i h
          cases h

/-! ## Files -/

/-- Copying leaves the file with what it had and the pieces after it. -/
theorem copyBody_spec (g : Guarded s R G Own) {p : Loc} {fd : Fd} {perm : Nat} {old : Bytes}
    {bodyErr : Option Err} {pieces : List Bytes} (hp : T p = some (.file perm old)) :
    Triple (exec m tid) R G (fun w => Own w ∧ Writing s T p fd w) (copyBody fd bodyErr pieces)
      (Outcome m s Own (if bodyErr = none then
        some (T.insert p (.file perm (old ++ pieces.flatten))) else none)) := by
  induction pieces generalizing T old with
  | nil =>
      have hsame : T.insert p (.file perm (old ++ [])) = T := by
        funext q
        by_cases hq : q = p
        · rw [hq, TreeMap.insert_self, hp, List.append_nil]
        · exact TreeMap.insert_other hq
      simp only [List.flatten_nil, hsame]
      cases bodyErr with
      | none =>
          exact triple_ret (g.stable_writing T p fd) fun w hw => outcome_ok ⟨hw.1, hw.2.toHolds⟩
      | some e =>
          exact triple_ret (g.stable_writing T p fd) fun w hw =>
            outcome_refused ⟨hw.1, hw.2.toHolds⟩
  | cons piece pieces ih =>
      simp only [copyBody, Prog.bind_eq]
      refine triple_bind (g.write hp) fun r => ?_
      cases r with
      | ok _ =>
          have hrec := ih (TreeMap.insert_self T p (.file perm (old ++ piece)))
          rw [TreeMap.insert_insert, List.append_assoc, ← List.flatten_cons] at hrec
          exact hrec
      | error e =>
          refine triple_ret ((Stable.const _).and (Stable.exists fun T' => g.stable T')) ?_
          exact fun w hw => ⟨.inr hw.1, hw.2⟩

/-- `Close` after the last write: its failure is reported. -/
theorem close_spec (g : Guarded s R G Own) (fd : Fd) :
    Triple (exec m tid) R G (Knows s Own T)
      ((Sys.close fd).bind fun r => Prog.ret (r.mapError Err.sys)) (Outcome m s Own (some T)) := by
  refine triple_bind (g.close (g.stable T) fd) fun r => triple_pure fun hr => ?_
  cases r with
  | ok _ => exact triple_ret (g.stable T) fun w hw => outcome_ok hw
  | error e =>
      have hf : m.Faulty := hr.resolve_left (by simp)
      exact triple_ret (g.stable T) fun w hw => outcome_faulty hf hw

theorem unpackFile_spec (g : Guarded s R G Own) (hs : CleanParts s.rooted s.parts)
    (hnames : ∀ x ∈ names, Name x) (hc : Name c) (hroot : T.isDir []) (hdr : TarEntry) :
    Triple (exec m tid) R G (Knows s Own T) (unpackFile (s.path []) (s.path (names ++ [c])) hdr)
      (Outcome m s Own (if hdr.bodyErr = none then
        addNew s.umask T (names ++ [c])
          (.file (maskPerm s.umask (hdr.mode &&& 0o777)) hdr.body.flatten) else none)) := by
  unfold unpackFile
  simp only [Prog.bind_eq]
  refine outcome_bind g (ensureNewPath_spec g hs hnames hc hroot) (fun e => rfl) ?_ ?_
  · intro hnone
    simp [addNew, hnone]
  intro T' hT'
  obtain ⟨_, hdir, hfree⟩ := newPath_cases hT' hroot
  simp only [addNew, hT', Option.map_some]
  refine triple_bind (g.openExcl hnames hc hdir hfree) fun r => ?_
  cases r with
  | error e =>
      exact triple_ret ((Stable.const _).and (g.stable T')) fun w hw => outcome_faulty hw.1 hw.2
  | ok fd =>
      refine triple_bind (copyBody_spec g (TreeMap.insert_self _ _ _)) fun r => ?_
      simp only [TreeMap.insert_insert, List.nil_append]
      cases r with
      | ok _ =>
          refine triple_exists fun T'' => triple_pure fun hT'' => ?_
          rw [Site.perm] at hT''
          rw [hT'']
          exact close_spec g fd
      | error e =>
          refine triple_bind (g.close ?_ fd) fun r => ?_
          · exact (Stable.const _).and (Stable.exists fun T => g.stable T)
          · exact triple_pre (triple_fails g) fun w hw => hw.2

/-! ## Links -/

/-- Creating an entry and passing its error on. -/
theorem created_spec (g : Guarded s R G Own) {P : World → Prop} {p : Sys (Except Errno Unit)}
    {T T' : TreeMap} (hp : Triple (exec m tid) R G P p (Created m s Own T T')) :
    Triple (exec m tid) R G P (p.bind fun r => Prog.ret (r.mapError Err.sys))
      (Outcome m s Own (some T')) := by
  refine triple_bind hp fun r => ?_
  cases r with
  | ok _ => exact triple_ret (g.stable_created T T' (.ok ())) fun w hw => outcome_ok hw
  | error e =>
      exact triple_ret (g.stable_created T T' (.error e)) fun w hw => outcome_faulty hw.1 hw.2

theorem unpackSymlink_spec (g : Guarded s R G Own) (hs : CleanParts s.rooted s.parts)
    (hnames : ∀ x ∈ names, Name x) (hc : Name c) (hroot : T.isDir []) (hdr : TarEntry) :
    Triple (exec m tid) R G (Knows s Own T) (unpackSymlink (s.path []) (s.path (names ++ [c])) hdr)
      (Outcome m s Own (if hdr.linkname = [] then none else
        addNew s.umask T (names ++ [c]) (.symlink hdr.linkname))) := by
  unfold unpackSymlink
  simp only [Prog.bind_eq]
  refine outcome_bind g (ensureNewPath_spec g hs hnames hc hroot) (fun e => rfl) ?_ ?_
  · intro hnone
    simp [addNew, hnone]
  intro T' hT'
  obtain ⟨_, hdir, hfree⟩ := newPath_cases hT' hroot
  simp only [addNew, hT', Option.map_some]
  by_cases hl : hdr.linkname = []
  · -- the kernel refuses an empty target
    rw [if_pos hl, hl]
    refine triple_bind (triple_reads (.symlink [] (s.path (names ++ [c]))) g.refl (g.stable T')
      (F := fun (r : Except Errno Unit) => ∃ e, r = .error e) ?_) fun r => triple_pure fun hr => ?_
    · intro w r w' _ hE
      rcases exec_symlink hE with ⟨_, ⟨k, hr⟩, hw⟩ | h
      · exact ⟨hw, _, hr⟩
      · simp only [Nominal, if_true] at h
        exact ⟨h.2, _, h.1⟩
    · obtain ⟨e, rfl⟩ := hr
      exact triple_ret (g.stable T') fun w hw => outcome_refused hw
  · rw [if_neg hl]
    exact created_spec g (g.symlink hnames hc hdir hfree hl)

theorem unpackLink_spec (g : Guarded s R G Own) (hs : CleanParts s.rooted s.parts)
    (hnames : ∀ x ∈ names, Name x) (hc : Name c) (hroot : T.isDir []) (hdr : TarEntry) :
    Triple (exec m tid) R G (Knows s Own T) (unpackLink (s.path []) (s.path (names ++ [c])) hdr)
      (Outcome m s Own (match entryPath hdr.linkname with
        | none => none
        | some old => addLink s.umask T old (names ++ [c]))) := by
  unfold unpackLink
  rcases tarTarget_cases s hs hdr.linkname with ⟨old, hold, htarget, hne, hall⟩ |
    ⟨hnone, e, htarget⟩
  · simp only [htarget, hold, Prog.bind_eq]
    obtain ⟨names', c', rfl⟩ : ∃ names' c', old = names' ++ [c'] :=
      ⟨old.dropLast, old.getLast hne, (List.dropLast_append_getLast hne).symm⟩
    have hnames' : ∀ x ∈ names', Name x := fun x hx => hall x (List.mem_append_left _ hx)
    have hc' : Name c' := hall c' (by simp)
    refine outcome_bind g (ensurePathParent_spec g hs hnames' hc' hroot) (fun e => rfl) ?_ ?_
    · intro hnone
      simp [addLink, hnone]
    intro T' hT'
    have hdir' : T'.isDir names' := by simpa using addParents_isDir hT' hroot
    have hroot' : T'.isDir [] := (addParents_grows hT').isDir hroot
    simp only [addLink, List.dropLast_concat, hT']
    refine triple_bind (g.lstat hnames' hc' hdir') fun r => triple_pure fun hr => ?_
    cases r with
    | error e =>
        rcases hr with ⟨rfl, hfree⟩ | ⟨_, hf⟩
        · simp only [hfree]
          exact triple_ret (g.stable T') fun w hw => outcome_refused hw
        · exact triple_ret (g.stable T') fun w hw => outcome_faulty hf hw
    | ok info =>
        obtain ⟨ct, hct, rfl⟩ := hr
        cases ct with
        | dir perm =>
            simp only [hct]
            exact triple_ret (g.stable T') fun w hw => outcome_refused hw
        | symlink target =>
            simp only [hct]
            exact triple_ret (g.stable T') fun w hw => outcome_refused hw
        | file perm data =>
            simp only [hct, Content.info, ne_eq, not_true_eq_false, if_false]
            refine outcome_bind g (ensureNewPath_spec g hs hnames hc hroot') (fun e => rfl) ?_ ?_
            · intro hnone
              simp [addNew, hnone]
            intro T'' hT''
            obtain ⟨hgrows, hdir, hfree⟩ := newPath_cases hT'' hroot'
            simp only [addNew, hT'', Option.map_some]
            exact created_spec g (g.link hnames hc hdir hfree hnames' hc' (hgrows.isDir hdir')
              (hgrows _ _ hct))
  · simp only [htarget, hnone]
    exact triple_ret (g.stable T) fun w hw => outcome_refused hw

/-! ## The archive -/

theorem unpackEntry_spec (g : Guarded s R G Own) (hs : CleanParts s.rooted s.parts)
    (hroot : T.isDir []) (hdr : TarEntry) :
    Triple (exec m tid) R G (Knows s Own T) (unpackEntry (s.path []) hdr)
      (Outcome m s Own (extractEntry s.umask T hdr)) := by
  unfold unpackEntry extractEntry
  rcases tarTarget_cases s hs hdr.name with ⟨p, hp, htarget, hne, hall⟩ | ⟨hnone, e, htarget⟩
  · simp only [htarget, hp]
    obtain ⟨names, c, rfl⟩ : ∃ names c, p = names ++ [c] :=
      ⟨p.dropLast, p.getLast hne, (List.dropLast_append_getLast hne).symm⟩
    have hnames : ∀ x ∈ names, Name x := fun x hx => hall x (List.mem_append_left _ hx)
    have hc : Name c := hall c (by simp)
    cases hdr.typeflag with
    | dir => exact ensureDirectory_spec g hs hnames hc hroot
    | reg => exact unpackFile_spec g hs hnames hc hroot hdr
    | symlink => exact unpackSymlink_spec g hs hnames hc hroot hdr
    | link => exact unpackLink_spec g hs hnames hc hroot hdr
    | other flag => exact triple_ret (g.stable T) fun w hw => outcome_refused hw
  · simp only [htarget, hnone]
    exact triple_ret (g.stable T) fun w hw => outcome_refused hw

/-- The head of the loop: the context is looked at, then the archive is read on. -/
def afterNext (p : Sys (Except Err Unit)) : Sys (Except Err Unit) :=
  Sys.ctxErr.bind fun x =>
    match x with
    | some e => Prog.ret (.error (.sys e))
    | none =>
        Sys.readNext.bind fun y =>
          match y with
          | .error e => Prog.ret (.error (.sys e))
          | .ok () => p

theorem unpackEntries_spec (g : Guarded s R G Own) (hs : CleanParts s.rooted s.parts)
    (hroot : T.isDir []) (failure : Option Err) (entries : List TarEntry) :
    Triple (exec m tid) R G (Knows s Own T) (unpackEntries (s.path []) failure entries)
      (Outcome m s Own (extract s.umask T ⟨entries, failure⟩)) := by
  have hprefix : ∀ (T : TreeMap) (o : Option TreeMap) (p : Sys (Except Err Unit)),
      Triple (exec m tid) R G (Knows s Own T) p (Outcome m s Own o) →
      Triple (exec m tid) R G (Knows s Own T) (afterNext p) (Outcome m s Own o) := by
    intro T o p hp
    unfold afterNext
    refine triple_bind (g.ctxErr (g.stable T)) fun x => triple_pure fun hx => ?_
    cases x with
    | some e =>
        have hf : m.Faulty := hx.resolve_left (by simp)
        exact triple_ret (g.stable T) fun w hw => outcome_faulty hf hw
    | none =>
        refine triple_bind (g.readNext (g.stable T)) fun y => triple_pure fun hy => ?_
        cases y with
        | ok _ => exact hp
        | error e =>
            have hf : m.Faulty := hy.resolve_left (by simp)
            exact triple_ret (g.stable T) fun w hw => outcome_faulty hf hw
  induction entries generalizing T with
  | nil =>
      refine hprefix T _ _ ?_
      cases failure with
      | none => exact triple_ret (g.stable T) fun w hw => outcome_ok hw
      | some e => exact triple_ret (g.stable T) fun w hw => outcome_refused hw
  | cons hdr entries ih =>
      refine hprefix T _ _ ?_
      refine outcome_bind g (unpackEntry_spec g hs hroot hdr) (fun e => rfl) ?_ ?_
      · intro hnone
        simp [extract, extractEntries, hnone]
      · intro T' hT'
        have hstep : extract s.umask T ⟨hdr :: entries, failure⟩ =
            extract s.umask T' ⟨entries, failure⟩ := by
          simp [extract, extractEntries, hT']
        rw [hstep]
        exact ih (extractEntry_grows hT' |>.isDir hroot)

/-- What reading the archive may have given, and what the contents should become. -/
def extractRead (umask : Nat) (T : TreeMap) (untar : Bytes → Archive) :
    Except Errno Bytes → Option TreeMap
  | .ok data => extract umask T (untar data)
  | .error _ => none

/-- `unpackTar` refines `extract`: when it returns success the destination holds
what the archive extracts to, and it returns an error only if the archive cannot
be read, is refused, or the machine fails. -/
theorem unpackTar_spec (tid : Nat) (g : Guarded s R G Own) (hs : CleanParts s.rooted s.parts)
    (hroot : T.isDir []) (untar : Bytes → Archive) (tarFile : Bytes)
    {F : Except Errno Bytes → Prop}
    (hread : ∀ w r w', Own w → exec m tid (.readFile tarFile) w r w' → F r) :
    Triple (exec m tid) R G (Knows s Own T) (unpackTar untar tarFile (s.path [])) fun r w =>
      (m.Faulty ∧ (∃ e, r = .error e) ∧ ∃ T', Knows s Own T' w) ∨
        ∃ x, F x ∧ Outcome m s Own (extractRead s.umask T untar x) r w := by
  have hpath : s.path [] = render s.rooted s.parts := by rw [Site.path, List.append_nil]
  unfold unpackTar
  simp only [Prog.bind_eq]
  refine triple_bind (M := fun r w => (r = .ok () ∨ m.Faulty) ∧ Knows s Own T w) ?_
    fun r => triple_pure fun hr => ?_
  · rw [hpath]
    exact Os.mkdirAllFrom_existing g.refl (g.stable T) hs
      (fun w hw => ⟨s.loc, hw.2.leads.resolve, hw.2.leads.isDir⟩) _ _
  cases r with
  | error e =>
      have hf : m.Faulty := hr.resolve_left (by simp)
      exact triple_ret (g.stable T) fun w hw => .inl ⟨hf, ⟨_, rfl⟩, T, hw⟩
  | ok _ =>
      refine triple_bind (triple_reads (.readFile tarFile) g.refl (g.stable T)
        fun w r w' hw hE => ⟨(exec_readFile hE).1, hread w r w' hw.1 hE⟩) fun x => ?_
      refine triple_pure fun hx => ?_
      cases x with
      | error e => exact triple_ret (g.stable T) fun w hw => .inr ⟨_, hx, outcome_refused hw⟩
      | ok data =>
          refine triple_post (unpackEntries_spec g hs hroot (untar data).failure
            (untar data).entries) fun r w h => .inr ⟨_, hx, h⟩

end

end BuilderShim.Fileutils
