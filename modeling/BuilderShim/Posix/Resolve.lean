/-
  Posix/Resolve.lean --- how the kernel turns a path string into a location.

  Resolution walks the elements of the path from the root or the working
  directory, follows every symlink it meets on the way, and gives up after a
  fixed number of them.  Whether a symlink in the last element is followed
  depends on the system call: `resolve` follows it, `locate` does not.

  The lemmas describe resolution below a directory whose own path is known:
  `walk_append` splits a walk, and `Below` says where the path of a name below
  that directory leads as long as the names on the way are real directories.
-/
import BuilderShim.Posix.FileSystem

set_option autoImplicit false

namespace BuilderShim.Posix

open BuilderShim.Filepath

namespace FS

variable {fs : FS}

/-- Walk the elements from `cur`; a symlink is handed to `follow` together with
the elements that are left. -/
def walkWith (fs : FS) (follow : Loc → List Bytes → Except Errno Loc) :
    Loc → List Bytes → Except Errno Loc
  | cur, [] => .ok cur
  | cur, c :: cs =>
      if fs.isDir cur = false then .error .notdir
      else if c = [] ∨ c = dot then walkWith fs follow cur cs
      else if c = dotdot then walkWith fs follow cur.dropLast cs
      else
        match fs.node (cur ++ [c]) with
        | none => .error .noent
        | some n =>
            match n.kind with
            | .symlink target =>
                follow (if isAbs target then [] else cur) (split target ++ cs)
            | _ => walkWith fs follow (cur ++ [c]) cs

/-- Walk with at most `fuel` symlinks. -/
def walk (fs : FS) : Nat → Loc → List Bytes → Except Errno Loc
  | 0 => walkWith fs fun _ _ => .error .loop
  | fuel + 1 => walkWith fs (walk fs fuel)

/-- The kernel's limit on symlinks in one resolution. -/
def maxSymlinks : Nat := 40

def start (fs : FS) (path : Bytes) : Loc := if isAbs path then [] else fs.cwd

/-- Where a path leads, every symlink followed. -/
def resolve (fs : FS) (path : Bytes) : Except Errno Loc :=
  fs.walk maxSymlinks (fs.start path) (split path)

/-- The entry that elements walked from `cur` name, the last one not followed.
Elements that do not end in a name (`"."`, a trailing separator) name what they
resolve to. -/
def locateFrom (fs : FS) (cur : Loc) (elements : List Bytes) : Except Errno Loc :=
  match elements.getLast? with
  | none => .error .noent
  | some last =>
      if Name last then
        match fs.walk maxSymlinks cur elements.dropLast with
        | .error e => .error e
        | .ok d => if fs.isDir d then .ok (d ++ [last]) else .error .notdir
      else fs.walk maxSymlinks cur elements

/-- The entry a path names, the last element not followed. -/
def locate (fs : FS) (path : Bytes) : Except Errno Loc :=
  fs.locateFrom (fs.start path) (split path)

/-- The entry `open` works on: the last element is followed while it is a
symlink, and need not exist. -/
def followLast (fs : FS) : Nat → Loc → List Bytes → Except Errno Loc
  | fuel, cur, elements =>
      match fs.locateFrom cur elements with
      | .error e => .error e
      | .ok p =>
          match fs.node p with
          | some ⟨.symlink target, _⟩ =>
              match fuel with
              | 0 => .error .loop
              | fuel + 1 =>
                  followLast fs fuel (if isAbs target then [] else p.dropLast) (split target)
          | _ => .ok p

def openTarget (fs : FS) (path : Bytes) : Except Errno Loc :=
  fs.followLast maxSymlinks (fs.start path) (split path)

variable {p cur d : Loc} {c : Bytes} {cs names xs parts : List Bytes} {fuel : Nat} {fs' : FS}
  {rooted : Bool}

/-- What is not a symlink is opened itself. -/
theorem openTarget_eq {path : Bytes} (h : fs.locate path = .ok p)
    (hk : ∀ n, fs.node p = some n → ∀ t, n.kind ≠ .symlink t) : fs.openTarget path = .ok p := by
  unfold locate at h
  unfold openTarget followLast
  rw [h]
  simp only
  split
  · rename_i target owner hn
    exact absurd rfl (hk _ hn target)
  · rfl

/-! ## One element -/

@[simp] theorem walk_nil (fuel : Nat) (cur : Loc) : fs.walk fuel cur [] = .ok cur := by
  cases fuel <;> rfl

theorem walk_notdir (h : fs.isDir cur = false) : fs.walk fuel cur (c :: cs) = .error .notdir := by
  cases fuel <;> simp [walk, walkWith, h]

theorem walk_skip (h : fs.isDir cur = true) (hc : c = [] ∨ c = dot) :
    fs.walk fuel cur (c :: cs) = fs.walk fuel cur cs := by
  cases fuel <;> simp [walk, walkWith, h, hc]

theorem walk_missing (h : fs.isDir cur = true) (hc : Name c) (hn : fs.node (cur ++ [c]) = none) :
    fs.walk fuel cur (c :: cs) = .error .noent := by
  cases fuel <;> simp [walk, walkWith, h, hc.ne_nil, hc.ne_dot, hc.ne_dotdot, hn]

/-- A name that is not a symlink is entered. -/
theorem walk_step {n : Node} (h : fs.isDir cur = true) (hc : Name c)
    (hn : fs.node (cur ++ [c]) = some n) (hk : ∀ t, n.kind ≠ .symlink t) :
    fs.walk fuel cur (c :: cs) = fs.walk fuel (cur ++ [c]) cs := by
  cases hkind : n.kind with
  | symlink t => exact absurd hkind (hk t)
  | dir perm =>
      cases fuel <;> simp [walk, walkWith, h, hc.ne_nil, hc.ne_dot, hc.ne_dotdot, hn, hkind]
  | file ino =>
      cases fuel <;> simp [walk, walkWith, h, hc.ne_nil, hc.ne_dot, hc.ne_dotdot, hn, hkind]

theorem isDir_not_symlink (h : fs.isDir p = true) :
    ∃ n, fs.node p = some n ∧ ∀ t, n.kind ≠ .symlink t := by
  obtain ⟨n, hn, hd⟩ := isDir_iff.mp h
  refine ⟨n, hn, fun t ht => ?_⟩
  simp [Node.isDir, ht] at hd

/-- Names that lead through real directories are entered one after the other. -/
theorem walk_names (fuel : Nat) (hdir : fs.isDir (cur ++ names) = true)
    (hnames : ∀ c ∈ names, Name c) :
    fs.walk fuel cur names = .ok (cur ++ names) := by
  induction names generalizing cur with
  | nil => simp
  | cons c cs ih =>
      have hcur : fs.isDir cur = true :=
        isDir_of_below (node_ne_none_of_isDir hdir) (by simp)
      have happ : cur ++ c :: cs = (cur ++ [c]) ++ cs := by simp
      rw [happ] at hdir ⊢
      have hc : fs.isDir (cur ++ [c]) = true := by
        by_cases hcs : cs = []
        · subst hcs
          simpa using hdir
        · exact isDir_of_below (node_ne_none_of_isDir hdir) hcs
      obtain ⟨n, hn, hk⟩ := isDir_not_symlink hc
      rw [walk_step hcur (hnames c List.mem_cons_self) hn hk]
      exact ih hdir fun x hx => hnames x (List.mem_cons_of_mem _ hx)

/-! ## Splitting a walk -/

theorem walkWith_append {follow : Loc → List Bytes → Except Errno Loc} {m : Nat}
    (hfollow : ∀ cur xs d, follow cur xs = .ok d →
      ∃ m, ∀ ys, follow cur (xs ++ ys) = fs.walk m d ys)
    (hself : ∀ cur ys, fs.walkWith follow cur ys = fs.walk m cur ys)
    (h : fs.walkWith follow cur xs = .ok d) :
    ∃ m, ∀ ys, fs.walkWith follow cur (xs ++ ys) = fs.walk m d ys := by
  induction xs generalizing cur with
  | nil =>
      simp only [walkWith, Except.ok.injEq] at h
      subst h
      exact ⟨m, fun ys => hself cur ys⟩
  | cons c cs ih =>
      rw [walkWith] at h
      simp only [List.cons_append, walkWith]
      split at h
      · exact absurd h (by simp)
      rename_i hdir
      simp only [hdir]
      split at h
      · rename_i hskip
        simpa [hskip] using ih h
      rename_i hskip
      split at h
      · rename_i hdd
        simp only [hskip, if_false]
        simpa [hdd] using ih h
      rename_i hdd
      simp only [hskip, if_false, hdd]
      cases hn : fs.node (cur ++ [c]) with
      | none => rw [hn] at h; exact absurd h (by simp)
      | some n =>
          rw [hn] at h
          cases hk : n.kind with
          | symlink t =>
              simp only [hk] at h ⊢
              obtain ⟨m', hm'⟩ := hfollow _ _ _ h
              exact ⟨m', fun ys => by rw [← List.append_assoc]; exact hm' ys⟩
          | dir perm =>
              simp only [hk] at h ⊢
              exact ih h
          | file ino =>
              simp only [hk] at h ⊢
              exact ih h

/-- A walk that reaches `d` continues from `d`, with the symlinks it has left. -/
theorem walk_append (h : fs.walk fuel cur xs = .ok d) :
    ∃ m, ∀ ys, fs.walk fuel cur (xs ++ ys) = fs.walk m d ys := by
  induction fuel generalizing cur xs d with
  | zero =>
      exact walkWith_append (m := 0) (fun _ _ _ h => absurd h (by simp)) (fun _ _ => rfl) h
  | succ fuel ih =>
      exact walkWith_append (m := fuel + 1) (fun _ _ _ h => ih h) (fun _ _ => rfl) h

theorem walkWith_error (follow : Loc → List Bytes → Except Errno Loc)
    (hfollow : ∀ cur xs e ys, follow cur xs = .error e → follow cur (xs ++ ys) = .error e)
    {e : Errno} (h : fs.walkWith follow cur xs = .error e) (ys : List Bytes) :
    fs.walkWith follow cur (xs ++ ys) = .error e := by
  induction xs generalizing cur with
  | nil => cases h
  | cons c cs ih =>
      rw [walkWith] at h
      simp only [List.cons_append, walkWith]
      split at h
      · rename_i hdir
        simpa [hdir] using h
      rename_i hdir
      simp only [hdir]
      split at h
      · rename_i hskip
        simpa [hskip] using ih h
      rename_i hskip
      split at h
      · rename_i hdd
        simp only [hskip, if_false]
        simpa [hdd] using ih h
      rename_i hdd
      simp only [hskip, if_false, hdd]
      cases hn : fs.node (cur ++ [c]) with
      | none =>
          rw [hn] at h
          simpa using h
      | some n =>
          rw [hn] at h
          cases hk : n.kind with
          | symlink t =>
              simp only [hk] at h ⊢
              rw [if_neg (by simp), ← List.append_assoc]
              exact hfollow _ _ _ _ h
          | dir perm =>
              simp only [hk] at h ⊢
              exact ih h
          | file ino =>
              simp only [hk] at h ⊢
              exact ih h

/-- A walk that fails is not saved by more elements. -/
theorem walk_error {e : Errno} (h : fs.walk fuel cur xs = .error e) (ys : List Bytes) :
    fs.walk fuel cur (xs ++ ys) = .error e := by
  induction fuel generalizing cur xs e ys with
  | zero => exact walkWith_error (fun _ _ => .error .loop) (fun _ _ _ _ h => h) h ys
  | succ fuel ih => exact walkWith_error (fs.walk fuel) (fun _ _ _ ys h => ih h ys) h ys

/-- The front of a walk that succeeds leads to a directory. -/
theorem walk_front (h : fs.walk fuel cur (xs ++ [c]) = .ok d) :
    ∃ d' m, fs.walk fuel cur xs = .ok d' ∧ fs.isDir d' = true ∧ fs.walk m d' [c] = .ok d := by
  cases hx : fs.walk fuel cur xs with
  | error e =>
      rw [walk_error hx [c]] at h
      cases h
  | ok d' =>
      obtain ⟨m, hm⟩ := walk_append hx
      rw [hm [c]] at h
      refine ⟨d', m, rfl, ?_, h⟩
      by_contra hdir
      rw [walk_notdir (by simpa using hdir)] at h
      cases h

/-! ## More nodes -/

/-- `fs'` has every node of `fs`. -/
structure Grows (fs fs' : FS) : Prop where
  node : ∀ q n, fs.node q = some n → fs'.node q = some n
  cwd : fs'.cwd = fs.cwd

theorem Grows.isDir (h : fs.Grows fs') (hd : fs.isDir p = true) :
    fs'.isDir p = true := by
  obtain ⟨n, hn, hdir⟩ := isDir_iff.mp hd
  exact isDir_iff.mpr ⟨n, h.node p n hn, hdir⟩

theorem Grows.walkWith (h : fs.Grows fs') {follow follow' : Loc → List Bytes → Except Errno Loc}
    (hfollow : ∀ cur xs d, follow cur xs = .ok d → follow' cur xs = .ok d)
    (hw : fs.walkWith follow cur xs = .ok d) :
    fs'.walkWith follow' cur xs = .ok d := by
  induction xs generalizing cur with
  | nil => exact hw
  | cons c cs ih =>
      unfold FS.walkWith at hw ⊢
      by_cases hdir : fs.isDir cur = false
      · rw [if_pos hdir] at hw
        exact absurd hw (by simp)
      have hcur : fs.isDir cur = true := by simpa using hdir
      rw [if_neg hdir] at hw
      rw [if_neg (by simp [h.isDir hcur])]
      split at hw
      · rename_i hskip
        simpa [hskip] using ih hw
      rename_i hskip
      split at hw
      · rename_i hdd
        simp only [hskip, if_false]
        simpa [hdd] using ih hw
      rename_i hdd
      simp only [hskip, hdd, if_false]
      cases hn : fs.node (cur ++ [c]) with
      | none =>
          rw [hn] at hw
          exact absurd hw (by simp)
      | some n =>
          rw [hn] at hw
          rw [h.node _ n hn]
          cases hk : n.kind with
          | symlink t =>
              simp only [hk] at hw ⊢
              exact hfollow _ _ _ hw
          | dir perm =>
              simp only [hk] at hw ⊢
              exact ih hw
          | file ino =>
              simp only [hk] at hw ⊢
              exact ih hw

/-- A walk that succeeds is not disturbed by new nodes. -/
theorem Grows.walk (h : fs.Grows fs') (hw : fs.walk fuel cur xs = .ok d) :
    fs'.walk fuel cur xs = .ok d := by
  induction fuel generalizing cur xs d with
  | zero => exact h.walkWith (fun _ _ _ he => absurd he (by simp)) hw
  | succ fuel ih => exact h.walkWith (fun _ _ _ he => ih he) hw

/-- Names that are directories as far as they exist lead to the last one, or to
nothing. -/
theorem walk_open (hcur : fs.isDir cur = true) (hnames : ∀ x ∈ names, Name x)
    (hopen : ∀ ns, ns ≠ [] → ns <+: names →
      fs.node (cur ++ ns) = none ∨ fs.isDir (cur ++ ns) = true) :
    fs.walk fuel cur names =
      if fs.isDir (cur ++ names) = true then .ok (cur ++ names) else .error .noent := by
  by_cases hd : fs.isDir (cur ++ names) = true
  · rw [if_pos hd]
    exact walk_names _ hd hnames
  rw [if_neg hd]
  induction names generalizing cur with
  | nil =>
      rw [List.append_nil] at hd
      exact absurd hcur hd
  | cons a names ih =>
      rcases hopen [a] (by simp) (by simp [List.cons_prefix_cons]) with hnone | hdir
      · exact walk_missing hcur (hnames a List.mem_cons_self) hnone
      · obtain ⟨n, hn, hk⟩ := isDir_not_symlink hdir
        rw [walk_step hcur (hnames a List.mem_cons_self) hn hk]
        refine ih hdir (fun y hy => hnames y (List.mem_cons_of_mem _ hy)) ?_ (by simpa using hd)
        intro ns _ hns
        have := hopen (a :: ns) (by simp) (List.cons_prefix_cons.mpr ⟨rfl, hns⟩)
        simpa using this

/-! ## Below a directory -/

/-- `dest` is the rendering of `parts`, and leads to the directory `d`. -/
structure At (fs : FS) (rooted : Bool) (parts : List Bytes) (d : Loc) : Prop where
  parts_clean : CleanParts rooted parts
  resolve : fs.resolve (render rooted parts) = .ok d
  isDir : fs.isDir d = true

/-- `/` leads to the root directory. -/
theorem at_root (fs : FS) : fs.At true [] [] where
  parts_clean := cleanParts_of_names (by simp)
  resolve := by
    have hsplit : split (render true []) = [[], []] := by decide
    have hstart : fs.start (render true []) = [] := rfl
    have hroot : fs.isDir [] = true := fs.root_isDir
    rw [resolve, hsplit, hstart, maxSymlinks, walk]
    simp [walkWith, hroot]
  isDir := fs.root_isDir

theorem At.start_eq (h : CleanParts rooted parts) :
    fs.start (render rooted parts) = if rooted then [] else fs.cwd := by
  simp [start, isAbs_render h]

/-- The walk below the directory, whatever was needed to get there. -/
theorem At.walk_below (h : fs.At rooted parts d) :
    ∃ m, ∀ names : List Bytes, (∀ c ∈ names, Name c) → names ≠ [] →
      fs.walk maxSymlinks (fs.start (render rooted (parts ++ names)))
        (split (render rooted (parts ++ names))) = fs.walk m d names := by
  have hres := h.resolve
  rw [FS.resolve, At.start_eq h.parts_clean] at hres
  -- one list of skipped elements serves the directory and everything below it
  cases rooted with
  | true =>
      have hroot : fs.isDir [] = true := fs.root_isDir
      have hskip : ∀ (skipped : List Bytes) (rest : List Bytes),
          (∀ c ∈ skipped, c = [] ∨ c = dot) →
          fs.walk maxSymlinks [] (skipped ++ rest) = fs.walk maxSymlinks [] rest := by
        intro skipped rest hs
        induction skipped with
        | nil => rfl
        | cons c skipped ih =>
            rw [List.cons_append, walk_skip hroot (hs c List.mem_cons_self)]
            exact ih fun x hx => hs x (List.mem_cons_of_mem _ hx)
      obtain ⟨skipped, hsplit, hs⟩ := split_render h.parts_clean
      simp only [if_true] at hres
      rw [hsplit, hskip skipped parts hs] at hres
      obtain ⟨m, hm⟩ := walk_append hres
      refine ⟨m, fun names hnames _ => ?_⟩
      have hall := h.parts_clean.append hnames
      obtain ⟨skipped', hsplit', hs'⟩ := split_render hall
      rw [At.start_eq hall, hsplit', if_pos rfl, hskip skipped' _ hs']
      exact hm names
  | false =>
      simp only [Bool.false_eq_true, if_false] at hres
      by_cases hp : parts = []
      · subst hp
        have hd : d = fs.cwd := by
          have hdot : split (render false []) = [dot] := by decide
          rw [hdot] at hres
          by_cases hcwd : fs.isDir fs.cwd = true
          · rw [walk_skip hcwd (.inr rfl), walk_nil] at hres
            exact (Except.ok.inj hres).symm
          · rw [walk_notdir (by simpa using hcwd)] at hres
            exact absurd hres (by simp)
        refine ⟨maxSymlinks, fun names hnames hne => ?_⟩
        have hall := h.parts_clean.append hnames
        rw [At.start_eq hall, hd, List.nil_append, render_names hne,
          split_joinSlash (fun c hc => (hnames c hc).no_slash) hne]
        simp
      · rw [render_names hp, split_joinSlash h.parts_clean.no_slash hp] at hres
        obtain ⟨m, hm⟩ := walk_append hres
        refine ⟨m, fun names hnames hne => ?_⟩
        have hall := h.parts_clean.append hnames
        have hne' : parts ++ names ≠ [] := by simp [hne]
        rw [At.start_eq hall, render_names hne', split_joinSlash hall.no_slash hne']
        simpa using hm names

theorem split_render_concat (hall : CleanParts rooted (parts ++ [c])) :
    ∃ front, split (render rooted (parts ++ [c])) = front ++ [c] ∧
      (parts ≠ [] → front = split (render rooted parts)) ∧
      (parts = [] → front = if rooted then [[]] else []) := by
  have hne : parts ++ [c] ≠ [] := by simp
  have hparts : ∀ x ∈ parts, slash ∉ x := fun x hx => hall.no_slash x (List.mem_append_left _ hx)
  cases rooted with
  | true =>
      have hsplit : ∀ qs : List Bytes, split (render true qs) = [] :: split (joinSlash qs) := by
        intro qs
        have := split_append_slash [] (joinSlash qs)
        simpa [render, split] using this
      refine ⟨[] :: parts, ?_, ?_, ?_⟩
      · rw [hsplit, split_joinSlash hall.no_slash hne]
        rfl
      · intro hp
        rw [hsplit, split_joinSlash hparts hp]
      · rintro rfl
        rfl
  | false =>
      refine ⟨parts, ?_, ?_, ?_⟩
      · rw [render_names hne, split_joinSlash hall.no_slash hne]
      · intro hp
        rw [render_names hp, split_joinSlash hparts hp]
      · intro hp
        simpa using hp

/-- The entry named below a directory is in the directory its parent names lead
to, if that is one. -/
theorem At.locate_below (h : fs.At rooted parts d) :
    ∃ m, ∀ (names : List Bytes) (c : Bytes), (∀ x ∈ names, Name x) → Name c →
      fs.locate (render rooted (parts ++ names ++ [c])) =
        match fs.walk m d names with
        | .error e => .error e
        | .ok p => if fs.isDir p then .ok (p ++ [c]) else .error .notdir := by
  obtain ⟨m, hm⟩ := h.walk_below
  refine ⟨m, fun names c hnames hc => ?_⟩
  have hfront := h.parts_clean.append hnames
  have hall : CleanParts rooted (parts ++ names ++ [c]) := hfront.append (by simpa using hc)
  obtain ⟨front, hsplit, hne, hnil⟩ := split_render_concat hall
  have hstart : fs.start (render rooted (parts ++ names ++ [c])) =
      fs.start (render rooted (parts ++ names)) := by
    rw [At.start_eq hall, At.start_eq hfront]
  have hwalk : fs.walk maxSymlinks (fs.start (render rooted (parts ++ names))) front =
      fs.walk m d names := by
    by_cases hn : names = []
    · subst hn
      rw [walk_nil]
      rw [List.append_nil] at hne hnil ⊢
      by_cases hp : parts = []
      · rw [hnil hp, At.start_eq h.parts_clean]
        subst hp
        have hres := h.resolve
        rw [FS.resolve, At.start_eq h.parts_clean] at hres
        cases rooted with
        | true =>
            have hroot : fs.isDir [] = true := fs.root_isDir
            have hs : split (render true []) = [[], []] := by decide
            simp only [if_true] at hres ⊢
            rw [hs, walk_skip hroot (.inl rfl)] at hres
            exact hres
        | false =>
            have hs : split (render false []) = [dot] := by decide
            simp only [Bool.false_eq_true, if_false] at hres ⊢
            rw [hs] at hres
            rw [walk_nil]
            by_cases hcwd : fs.isDir fs.cwd = true
            · rw [walk_skip hcwd (.inr rfl), walk_nil] at hres
              exact hres
            · rw [walk_notdir (by simpa using hcwd)] at hres
              exact absurd hres (by simp)
      · rw [hne hp]
        exact h.resolve
    · rw [hne (by simp [hn])]
      exact hm names hnames hn
  unfold locate locateFrom
  rw [hsplit]
  simp only [List.getLast?_append, List.getLast?_singleton, Option.some_or, hc, if_true,
    List.dropLast_concat, hstart, hwalk]

/-- The front of a path that leads somewhere leads to a directory. -/
theorem resolve_front (h : CleanParts rooted (parts ++ [c]))
    (hd : fs.resolve (render rooted (parts ++ [c])) = .ok d) :
    ∃ d', fs.resolve (render rooted parts) = .ok d' ∧ fs.isDir d' = true := by
  obtain ⟨front, hsplit, hne, hnil⟩ := split_render_concat h
  unfold resolve at hd ⊢
  rw [hsplit, At.start_eq h] at hd
  obtain ⟨d', m, hwalk, hdir, _⟩ := walk_front hd
  refine ⟨d', ?_, hdir⟩
  rw [At.start_eq h.front]
  by_cases hp : parts = []
  · rw [hnil hp] at hwalk
    subst hp
    -- the root or the working directory, under its own name
    cases rooted with
    | true =>
        have hs : split (render true []) = [[], []] := by decide
        have hroot : fs.isDir [] = true := fs.root_isDir
        rw [hs, if_pos rfl, walk_skip hroot (.inl rfl)]
        simpa using hwalk
    | false =>
        have hs : split (render false []) = [dot] := by decide
        simp only [Bool.false_eq_true, if_false, walk_nil, Except.ok.injEq] at hwalk ⊢
        subst hwalk
        rw [hs, walk_skip hdir (.inr rfl), walk_nil]
  · rw [← hne hp]
    exact hwalk

/-- What a path leads to is there under the path's own last element too. -/
theorem locate_exists {path : Bytes} (hd : fs.resolve path = .ok d) (hdir : fs.isDir d = true)
    (hp : fs.locate path = .ok p) : fs.node p ≠ none := by
  unfold locate locateFrom at hp
  unfold resolve at hd
  split at hp
  · cases hp
  rename_i last hlast
  split at hp
  · rename_i hname
    have hsplit : split path = (split path).dropLast ++ [last] := by
      rw [List.dropLast_append_getLast? last hlast]
    rw [hsplit] at hd
    obtain ⟨d', m, hwalk, hd', hlast'⟩ := walk_front hd
    rw [hwalk] at hp
    simp only [hd', if_true, Except.ok.injEq] at hp
    subst hp
    intro hnone
    rw [walk_missing hd' hname hnone] at hlast'
    cases hlast'
  · rw [hd] at hp
    cases hp
    exact node_ne_none_of_isDir hdir

/-- Where a name below a directory is, when the names on the way are directories. -/
theorem At.locate_names (h : fs.At rooted parts d) (names : List Bytes)
    (hnames : ∀ x ∈ names, Name x) (hc : Name c) (hdir : fs.isDir (d ++ names) = true) :
    fs.locate (render rooted (parts ++ names ++ [c])) = .ok (d ++ names ++ [c]) := by
  obtain ⟨m, hm⟩ := h.locate_below
  rw [hm names c hnames hc, walk_names _ hdir hnames]
  simp [hdir]

/-- Following the last element changes nothing when it is not a symlink. -/
theorem At.resolve_names (h : fs.At rooted parts d) (names : List Bytes)
    (hnames : ∀ x ∈ names, Name x) (hc : Name c) (hdir : fs.isDir (d ++ names) = true) {n : Node}
    (hn : fs.node (d ++ names ++ [c]) = some n) (hk : ∀ t, n.kind ≠ .symlink t) :
    fs.resolve (render rooted (parts ++ names ++ [c])) = .ok (d ++ names ++ [c]) := by
  obtain ⟨m, hm⟩ := h.walk_below
  have hall : ∀ x ∈ names ++ [c], Name x := by
    intro x hx
    rcases List.mem_append.mp hx with hx | hx
    · exact hnames x hx
    · rw [List.mem_singleton.mp hx]
      exact hc
  obtain ⟨m', hm'⟩ := walk_append (walk_names m hdir hnames)
  rw [FS.resolve, List.append_assoc parts, hm (names ++ [c]) hall (by simp), hm' [c],
    walk_step hdir hc hn hk, walk_nil]

/-- A path below a directory leads nowhere when a name on it is missing. -/
theorem At.resolve_missing (h : fs.At rooted parts d) (names : List Bytes)
    (hnames : ∀ x ∈ names, Name x) (hc : Name c) (hdir : fs.isDir (d ++ names) = true)
    (hn : fs.node (d ++ names ++ [c]) = none) (rest : List Bytes) (hrest : ∀ x ∈ rest, Name x) :
    fs.resolve (render rooted (parts ++ names ++ [c] ++ rest)) = .error .noent := by
  obtain ⟨m, hm⟩ := h.walk_below
  have hall : ∀ x ∈ names ++ ([c] ++ rest), Name x := by
    intro x hx
    rcases List.mem_append.mp hx with hx | hx
    · exact hnames x hx
    rcases List.mem_append.mp hx with hx | hx
    · rw [List.mem_singleton.mp hx]
      exact hc
    · exact hrest x hx
  obtain ⟨m', hm'⟩ := walk_append (walk_names m hdir hnames)
  rw [FS.resolve, List.append_assoc, List.append_assoc, hm _ hall (by simp), hm', List.cons_append,
    walk_missing hdir hc hn]

theorem At.grows (hg : fs.Grows fs') (h : fs.At rooted parts d) : fs'.At rooted parts d := by
  refine ⟨h.parts_clean, ?_, hg.isDir h.isDir⟩
  have hres := h.resolve
  unfold FS.resolve at hres ⊢
  rw [At.start_eq h.parts_clean] at hres ⊢
  rw [hg.cwd]
  exact hg.walk hres

/-- A directory below a directory is found by its path. -/
theorem At.below (h : fs.At rooted parts d) (hnames : ∀ x ∈ names, Name x)
    (hdir : fs.isDir (d ++ names) = true) : fs.At rooted (parts ++ names) (d ++ names) := by
  by_cases hn : names = []
  · subst hn
    simpa using h
  · obtain ⟨m, hm⟩ := h.walk_below
    refine ⟨h.parts_clean.append hnames, ?_, hdir⟩
    rw [FS.resolve, hm names hnames hn]
    exact walk_names _ hdir hnames

end FS

end BuilderShim.Posix
