/-
  Posix/Tree.lean --- the contents of a directory as a value.

  `Tree` is what a recursive listing of a directory sees: files with their
  bytes, symlinks with their targets, directories with their entries in byte
  order.  `Tree.get` looks a relative location up, `Tree.walk` is the order of
  Go's `filepath.Walk`: a directory before its entries, the entries of one
  directory in byte order, each entry followed by everything below it.
-/
import BuilderShim.Posix.FileSystem

set_option autoImplicit false

namespace BuilderShim.Posix

open BuilderShim.Filepath

/-- What one node holds, hard links apart. -/
inductive Content where
  | dir (perm : Nat)
  | file (perm : Nat) (data : Bytes)
  | symlink (target : Bytes)
  deriving DecidableEq, Repr

def Content.isDir : Content → Bool
  | .dir _ => true
  | _ => false

namespace FS

def content (fs : FS) (n : Node) : Content :=
  match n.kind with
  | .dir perm => .dir perm
  | .file ino => .file (fs.inode ino).perm (fs.inode ino).data
  | .symlink target => .symlink target

/-- The contents at and below a location. -/
def view (fs : FS) (p : Loc) (rel : Loc) : Option Content :=
  (fs.node (p ++ rel)).map fs.content

@[simp] theorem content_isDir (fs : FS) (n : Node) : (fs.content n).isDir = n.isDir := by
  unfold content Node.isDir
  cases n.kind <;> rfl

theorem content_congr {fs fs' : FS} {n : Node}
    (h : ∀ i, n.kind = .file i → fs'.inode i = fs.inode i) : fs'.content n = fs.content n := by
  unfold content
  cases hk : n.kind with
  | dir perm => rfl
  | symlink target => rfl
  | file i => simp only [h i hk]

theorem isDir_iff_view {fs : FS} {p rel : Loc} :
    fs.isDir (p ++ rel) = true ↔ ∃ perm, fs.view p rel = some (.dir perm) := by
  rw [isDir_iff]
  constructor
  · rintro ⟨n, hn, hd⟩
    cases hk : n.kind with
    | dir perm => exact ⟨perm, by simp [view, hn, content, hk]⟩
    | file ino => simp [Node.isDir, hk] at hd
    | symlink t => simp [Node.isDir, hk] at hd
  · rintro ⟨perm, hv⟩
    obtain ⟨n, hn, hc⟩ := Option.map_eq_some_iff.mp hv
    refine ⟨n, hn, ?_⟩
    rw [← content_isDir fs n, hc]
    rfl

theorem view_eq_none_iff {fs : FS} {p rel : Loc} :
    fs.view p rel = none ↔ fs.node (p ++ rel) = none := by
  simp [view]

theorem view_move {fs : FS} {old new : Loc} (h : fs.Movable old new) (rel : Loc) :
    (fs.move old new h).view new rel = fs.view old rel := by
  unfold view
  rw [move_node, movedNode_new]
  exact Option.map_congr fun n _ => content_congr fun _ _ => rfl

end FS

/-- A directory tree, the entries of each directory in the order listed. -/
inductive Tree where
  | file (perm : Nat) (data : Bytes)
  | symlink (target : Bytes)
  | dir (perm : Nat) (children : List (Bytes × Tree))

namespace Tree

def content : Tree → Content
  | .file perm data => .file perm data
  | .symlink target => .symlink target
  | .dir perm _ => .dir perm

mutual

/-- The contents at a relative location. -/
def get : Tree → Loc → Option Content
  | t, [] => some t.content
  | .dir _ children, c :: rest => getIn children c rest
  | _, _ :: _ => none

def getIn : List (Bytes × Tree) → Bytes → Loc → Option Content
  | [], _, _ => none
  | (name, t) :: children, c, rest => if name = c then get t rest else getIn children c rest

end

mutual

/-- Every directory lists its entries in strictly increasing byte order, under
proper names. -/
def WF : Tree → Prop
  | .dir _ children => WFIn children
  | _ => True

def WFIn : List (Bytes × Tree) → Prop
  | [] => True
  | (name, t) :: children =>
      Name name ∧ (∀ entry ∈ children, name < entry.1) ∧ WF t ∧ WFIn children

end

mutual

/-- `filepath.Walk`: the locations in the order its callback sees them. -/
def walk : Tree → Loc → List (Loc × Content)
  | .dir perm children, at_ => (at_, .dir perm) :: walkIn children at_
  | t, at_ => [(at_, t.content)]

def walkIn : List (Bytes × Tree) → Loc → List (Loc × Content)
  | [], _ => []
  | (name, t) :: children, at_ => walk t (at_ ++ [name]) ++ walkIn children at_

end

theorem get_nil (t : Tree) : t.get [] = some t.content := by
  cases t <;> rfl

/-- What has something below it is a directory. -/
theorem get_dir_of_below {t : Tree} {rel rest : Loc} {c : Bytes} {content : Content}
    (h : t.get (rel ++ c :: rest) = some content) : ∃ perm, t.get rel = some (.dir perm) := by
  induction rel generalizing t with
  | nil =>
      cases t with
      | dir perm children => exact ⟨perm, rfl⟩
      | file perm data => cases h
      | symlink target => cases h
  | cons c' rel ih =>
      cases t with
      | file perm data => cases h
      | symlink target => cases h
      | dir perm children =>
          rw [List.cons_append, get] at h
          rw [get]
          induction children with
          | nil => cases h
          | cons child children ihc =>
              rw [getIn] at h ⊢
              by_cases hname : child.1 = c'
              · rw [if_pos hname] at h ⊢
                exact ih h
              · rw [if_neg hname] at h ⊢
                exact ihc h

mutual

/-- The walk comes to what the tree holds, under proper names. -/
theorem get_of_mem_walk (t : Tree) (ht : t.WF) (at_ : Loc) (e : Loc × Content)
    (he : e ∈ t.walk at_) :
    ∃ names, e.1 = at_ ++ names ∧ (∀ x ∈ names, Name x) ∧ t.get names = some e.2 := by
  cases t with
  | file perm data | symlink target =>
      rw [List.mem_singleton.mp he]
      exact ⟨[], (List.append_nil _).symm, fun _ h => absurd h List.not_mem_nil, rfl⟩
  | dir perm children =>
      rw [walk] at he
      rcases List.mem_cons.mp he with rfl | he
      · exact ⟨[], (List.append_nil _).symm, fun _ h => absurd h List.not_mem_nil, rfl⟩
      · obtain ⟨name, names, hat, hnames, _, hget⟩ := get_of_mem_walkIn children ht at_ e he
        exact ⟨name :: names, hat, hnames, hget⟩

theorem get_of_mem_walkIn (children : List (Bytes × Tree)) (h : WFIn children) (at_ : Loc)
    (e : Loc × Content) (he : e ∈ walkIn children at_) :
    ∃ name names, e.1 = at_ ++ name :: names ∧ (∀ x ∈ name :: names, Name x) ∧
      (∃ child ∈ children, child.1 = name) ∧ getIn children name names = some e.2 := by
  cases children with
  | nil => exact absurd he List.not_mem_nil
  | cons child children =>
      obtain ⟨first, t⟩ := child
      obtain ⟨hfirst, hless, ht, hrest⟩ := h
      rw [walkIn] at he
      rcases List.mem_append.mp he with he | he
      · obtain ⟨names, hat, hnames, hget⟩ := get_of_mem_walk t ht _ e he
        refine ⟨first, names, ?_, List.forall_mem_cons.mpr ⟨hfirst, hnames⟩,
          ⟨_, List.mem_cons_self, rfl⟩, ?_⟩
        · rw [hat, List.append_assoc]
          rfl
        · rw [getIn, if_pos rfl]
          exact hget
      · obtain ⟨name, names, hat, hnames, ⟨child, hmem, rfl⟩, hget⟩ :=
          get_of_mem_walkIn children hrest at_ e he
        refine ⟨child.1, names, hat, hnames, ⟨child, List.mem_cons_of_mem _ hmem, rfl⟩, ?_⟩
        have hne : first ≠ child.1 := fun heq => List.lt_irrefl _ (heq ▸ hless child hmem)
        rw [getIn, if_neg hne]
        exact hget

end

theorem wfIn_iff {children : List (Bytes × Tree)} :
    WFIn children ↔ children.Pairwise (fun a b => a.1 < b.1) ∧
      ∀ child ∈ children, Name child.1 ∧ child.2.WF := by
  induction children with
  | nil => exact ⟨fun _ => ⟨List.Pairwise.nil, List.forall_mem_nil _⟩, fun _ => trivial⟩
  | cons child children ih =>
      rw [WFIn, ih, List.pairwise_cons, List.forall_mem_cons]
      tauto

theorem walkIn_append (children children' : List (Bytes × Tree)) (at_ : Loc) :
    walkIn (children ++ children') at_ =
      walkIn children at_ ++ walkIn children' at_ := by
  induction children with
  | nil => rfl
  | cons child children ih => rw [List.cons_append, walkIn, walkIn, ih, List.append_assoc]

theorem mem_walkIn_iff {children : List (Bytes × Tree)} {at_ : Loc} {e : Loc × Content} :
    e ∈ walkIn children at_ ↔ ∃ child ∈ children, e ∈ child.2.walk (at_ ++ [child.1]) := by
  induction children with
  | nil => exact ⟨fun h => absurd h List.not_mem_nil, fun ⟨_, h, _⟩ => absurd h List.not_mem_nil⟩
  | cons child children ih =>
      rw [walkIn, List.mem_append, ih, List.exists_mem_cons_iff]

theorem head_mem_walk (t : Tree) (at_ : Loc) : (at_, t.content) ∈ t.walk at_ := by
  cases t <;> exact List.mem_cons_self

/-- Nothing is below it. -/
def childless : Tree → Bool
  | .dir _ children => children.isEmpty
  | _ => true

theorem walk_of_childless {t : Tree} (h : t.childless = true) (at_ : Loc) :
    t.walk at_ = [(at_, t.content)] := by
  cases t with
  | file perm data | symlink target => rfl
  | dir perm children =>
      obtain rfl := List.isEmpty_iff.mp h
      rfl

theorem mem_walk_of_not_childless {t : Tree} (h : t.childless = false) (at_ : Loc) :
    ∃ name content, (at_ ++ [name], content) ∈ t.walk at_ := by
  cases t with
  | file perm data | symlink target => cases h
  | dir perm children =>
      cases children with
      | nil => cases h
      | cons child children =>
          refine ⟨child.1, child.2.content, List.mem_cons_of_mem _ ?_⟩
          exact mem_walkIn_iff.mpr ⟨child, List.mem_cons_self, head_mem_walk _ _⟩

end Tree

/-- `t` is what a recursive listing of the directory at `p` sees. -/
structure FS.Shows (fs : FS) (p : Loc) (t : Tree) : Prop where
  wf : t.WF
  get : ∀ rel, t.get rel = fs.view p rel

end BuilderShim.Posix
