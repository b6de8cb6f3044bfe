/-
  Fsutil/Validator.lean --- the order that BuildKit demands of a transfer
  (vendor/github.com/tonistiigi/fsutil/validator.go).

  The validator keeps the directories that an entry may still be in, each with the
  last name seen there.  These are determined by the last entry alone (`openDirs`),
  and a sequence of entries is accepted if and only if it is a `Listing`.
-/
import BuilderShim.Foundation.Preorder
import BuilderShim.GoLib.Filepath
import BuilderShim.GoLib.Sort

set_option autoImplicit false

namespace BuilderShim.Fsutil

open BuilderShim.Filepath
open BuilderShim.Foundation

/-- `ComparePath` -/
def comparePath : Bytes → Bytes → Int
  | a :: p₁, b :: p₂ =>
      if a = b then comparePath p₁ p₂
      else if (b ≠ slash ∧ a < b) ∨ a = slash then -1
      else 1
  | p₁, p₂ => p₁.length - p₂.length

/-- `parent` -/
structure Parent where
  dir : Bytes
  last : Bytes

inductive ValidatorError where
  | uncleanPath (p : Bytes)
  | absolutePath (p : Bytes)
  | escapeCheck (p : Bytes)
  | outOfOrder (p last : Bytes)

/-- The parent directory of a path, as the validator writes it. -/
def parentOf (p : Bytes) : Bytes := if dir p = dot then [] else dir p

/-- The index of the record that a directory is compared with. -/
def findParent (parentDirs : List Parent) (dir : Bytes) : Nat :=
  let n := parentDirs.length
  n - 1 - Sort.search n fun i =>
    match parentDirs[n - 1 - i]? with
    | some parent => decide (comparePath parent.dir dir ≤ 0)
    | none => false

/-- `Validator.HandleChange` of a path that is added.  There is always a record, so the
one that was found exists. -/
def handleChange (parentDirs : List Parent) (p : Bytes) (isDir : Bool) :
    Except ValidatorError (List Parent) :=
  if p ≠ clean p then .error (.uncleanPath p)
  else if isAbs p = true then .error (.absolutePath p)
  else if parentOf p = dotdot ∨ (dotdot ++ [slash]).isPrefixOf p = true then
    .error (.escapeCheck p)
  else
    let i := findParent parentDirs (parentOf p)
    match parentDirs[i]? with
    | none => .error (.outOfOrder p [])
    | some parent =>
        if parentOf p ≠ parent.dir ∨ ¬ parent.last < base p then
          .error (.outOfOrder p (join parent.dir parent.last))
        else
          let seen := parentDirs.take i ++ [{ parent with last := base p }]
          .ok (if isDir = true then seen ++ [⟨join (parentOf p) (base p), []⟩] else seen)

/-- All the changes, one after the other. -/
def handleChanges (parentDirs : List Parent) :
    List (Bytes × Bool) → Except ValidatorError (List Parent)
  | [] => .ok parentDirs
  | (p, isDir) :: changes =>
      match handleChange parentDirs p isDir with
      | .error e => .error e
      | .ok parentDirs => handleChanges parentDirs changes

/-- A new validator accepts the entries, given by their paths and whether they are
directories. -/
def Accepts (changes : List (Bytes × Bool)) : Prop :=
  ∃ parentDirs, handleChanges [⟨[], []⟩] changes = .ok parentDirs

/-! ## Paths -/

section

variable {parent rel : List Bytes} {name : Bytes}

theorem joinSlash_extends (a b : List Bytes) (hb : b ≠ []) (hne : ∀ c ∈ b, c ≠ []) :
    ∃ q, joinSlash (a ++ b) = joinSlash a ++ q ∧ q ≠ [] := by
  have hjoin : joinSlash b ≠ [] := (joinSlash_eq_nil_iff hne).not.mpr hb
  by_cases ha : a = []
  · exact ⟨joinSlash b, by rw [ha]; rfl, hjoin⟩
  · exact ⟨slash :: joinSlash b, joinSlash_append ha hb, List.cons_ne_nil _ _⟩

theorem parentOf_joinSlash (hparent : ∀ c ∈ parent, Name c) (hname : Name name) :
    parentOf (joinSlash (parent ++ [name])) = joinSlash parent := by
  rw [parentOf, dir_joinSlash hparent hname]
  by_cases hnil : parent = []
  · rw [hnil]
    rfl
  · rw [render_names hnil]
    apply if_neg
    intro hdot
    have hsplit := split_joinSlash (fun c hc => (hparent c hc).no_slash) hnil
    rw [hdot] at hsplit
    exact (hparent dot (hsplit ▸ List.mem_singleton_self dot)).ne_dot rfl

theorem clean_joinSlash (hrel : ∀ c ∈ rel, Name c) (hne : rel ≠ []) :
    clean (joinSlash rel) = joinSlash rel := by
  rw [← render_names hne]
  exact clean_render (cleanParts_of_names hrel)

theorem join_joinSlash (hparent : ∀ c ∈ parent, Name c) (hname : Name name) :
    join (joinSlash parent) name = joinSlash (parent ++ [name]) := by
  have hone : joinSlash [name] = name := by simp [joinSlash]
  have hmem : ∀ c ∈ [name], Name c := fun c hc => List.mem_singleton.mp hc ▸ hname
  by_cases hnil : parent = []
  · have hempty : joinSlash ([] : List Bytes) = [] := rfl
    have hclean := clean_joinSlash hmem (List.cons_ne_nil _ _)
    rw [hnil, List.nil_append, hempty, join, if_neg (not_not.mpr rfl), if_pos hname.ne_nil, hone]
    rwa [hone] at hclean
  · have hparts : CleanParts false parent := cleanParts_of_names hparent
    have hrender := join_render [name] hparts hmem (List.cons_ne_nil _ _)
    rwa [render_names hnil, hone, render_names (List.append_ne_nil_of_left_ne_nil hnil _)]
      at hrender

theorem not_dotdot_of_mem_split {p : Bytes} (h : split p = rel) (hrel : ∀ c ∈ rel, Name c) :
    p ≠ dotdot ∧ ¬ (dotdot ++ [slash]) <+: p := by
  constructor
  · rintro rfl
    exact (hrel dotdot (h ▸ List.mem_singleton_self dotdot)).ne_dotdot rfl
  · rintro ⟨rest, rfl⟩
    rw [List.append_assoc, List.singleton_append, split_append_slash] at h
    apply (hrel dotdot ?_).ne_dotdot rfl
    rw [← h]
    exact List.mem_append_left _ (List.mem_singleton_self dotdot)

/-- A path of names passes the checks that are not about the order. -/
theorem handleChange_names {parentDirs : List Parent} {isDir : Bool}
    (hparent : ∀ c ∈ parent, Name c) (hname : Name name) :
    handleChange parentDirs (joinSlash (parent ++ [name])) isDir =
      match parentDirs[findParent parentDirs (joinSlash parent)]? with
      | none => .error (.outOfOrder (joinSlash (parent ++ [name])) [])
      | some found =>
          if joinSlash parent ≠ found.dir ∨ ¬ found.last < name then
            .error (.outOfOrder (joinSlash (parent ++ [name])) (join found.dir found.last))
          else
            let seen := parentDirs.take (findParent parentDirs (joinSlash parent)) ++
              [{ found with last := name }]
            .ok (if isDir = true then seen ++ [⟨joinSlash (parent ++ [name]), []⟩] else seen) := by
  have hnames : ∀ c ∈ parent ++ [name], Name c :=
    List.forall_mem_append.mpr ⟨hparent, fun c hc => List.mem_singleton.mp hc ▸ hname⟩
  have hne : parent ++ [name] ≠ [] := List.append_ne_nil_of_right_ne_nil _ (List.cons_ne_nil _ _)
  have hsplit := split_joinSlash (fun c hc => (hnames c hc).no_slash) hne
  have hclean := clean_joinSlash hnames hne
  have habs := isAbs_joinSlash (fun c hc => (hnames c hc).no_slash) fun c hc => (hnames c hc).ne_nil
  have hescape : ¬ (joinSlash parent = dotdot ∨
      (dotdot ++ [slash]).isPrefixOf (joinSlash (parent ++ [name])) = true) := by
    rintro (hdots | hpre)
    · by_cases hnil : parent = []
      · rw [hnil] at hdots
        cases hdots
      · exact (not_dotdot_of_mem_split
          (split_joinSlash (fun c hc => (hparent c hc).no_slash) hnil) hparent).1 hdots
    · exact (not_dotdot_of_mem_split hsplit hnames).2 (List.isPrefixOf_iff_prefix.mp hpre)
  rw [handleChange, hclean, if_neg (not_not.mpr rfl), habs, if_neg Bool.false_ne_true,
    parentOf_joinSlash hparent hname, if_neg hescape, base_joinSlash hname,
    join_joinSlash hparent hname]

end

/-! ## The records -/

theorem comparePath_append (p q : Bytes) : comparePath p (p ++ q) = -q.length := by
  induction p with
  | nil =>
      rw [List.nil_append, comparePath]
      · simp
      · intro a p₁ b p₂ h
        cases h
  | cons a p ih => rw [List.cons_append, comparePath, if_pos rfl, ih]

theorem comparePath_append_left (p q : Bytes) : comparePath (p ++ q) p = q.length := by
  induction p with
  | nil =>
      rw [List.nil_append, comparePath]
      · simp
      · intro a p₁ b p₂ _ h
        cases h
  | cons a p ih => rw [List.cons_append, comparePath, if_pos rfl, ih]

/-- The records for the directories that a place lies in. -/
def frames : List Bytes → List Bytes → List Parent
  | _, [] => []
  | front, c :: rest => ⟨joinSlash front, c⟩ :: frames (front ++ [c]) rest

/-- The records after an entry at a place. -/
def openDirs (place : List Bytes × Bool) : List Parent :=
  frames [] place.1 ++ if place.2 = true then [⟨joinSlash place.1, []⟩] else []

section

variable {front rel rel' : List Bytes} {prev : List Bytes × Bool}

theorem frames_append (front a b : List Bytes) :
    frames front (a ++ b) = frames front a ++ frames (front ++ a) b := by
  induction a generalizing front with
  | nil => simp [frames]
  | cons c a ih =>
      rw [List.cons_append, frames, frames, ih, List.cons_append, List.append_assoc]
      rfl

theorem mem_frames {found : Parent} (h : found ∈ frames front rel) :
    ∃ a c b, rel = a ++ c :: b ∧ found = ⟨joinSlash (front ++ a), c⟩ := by
  induction rel generalizing front with
  | nil => cases h
  | cons c rel ih =>
      rcases List.mem_cons.mp h with rfl | h
      · exact ⟨[], c, rel, rfl, by rw [List.append_nil]⟩
      · obtain ⟨a, c', b, rfl, rfl⟩ := ih h
        exact ⟨c :: a, c', b, rfl, by rw [List.append_assoc]; rfl⟩

/-- Whatever record there is of a directory, the name in it is the one that the last entry
has there, or there was none yet. -/
theorem mem_openDirs {found : Parent} (h : found ∈ openDirs prev) :
    ∃ parent, found.dir = joinSlash parent ∧
      ((prev.1 = parent ∧ prev.2 = true) ∨
        ∃ rest, prev.1 = parent ++ found.last :: rest) := by
  rcases List.mem_append.mp h with h | h
  · obtain ⟨a, c, b, hrel, rfl⟩ := mem_frames h
    exact ⟨a, rfl, .inr ⟨b, hrel⟩⟩
  · split at h
    · rename_i hdir
      rw [List.mem_singleton.mp h]
      exact ⟨prev.1, rfl, .inl ⟨rfl, hdir⟩⟩
    · cases h

/-- The records, split at the one of a directory that the next entry may be in. -/
theorem openDirs_split {parent : List Bytes} {name : Bytes} (hprev : ∀ c ∈ prev.1, Name c)
    (hname : Name name) (h : Follows prev (parent ++ [name])) :
    ∃ last below, openDirs prev = frames [] parent ++ ⟨joinSlash parent, last⟩ :: below ∧
      last < name ∧ ∀ found ∈ below, ∃ q, found.dir = joinSlash parent ++ q ∧ q ≠ [] := by
  obtain ⟨parent', name', heq, hfollows⟩ := h
  obtain ⟨rfl, hlast⟩ := List.append_inj' heq rfl
  cases hlast
  rcases hfollows with ⟨rfl, hdir⟩ | ⟨c, rest, hrel, hlt⟩
  · refine ⟨[], [], ?_, ?_, List.forall_mem_nil _⟩
    · rw [openDirs, if_pos hdir]
    · obtain ⟨x, xs, rfl⟩ := List.exists_cons_of_ne_nil hname.ne_nil
      exact List.Lex.nil
  · refine ⟨c, frames (parent ++ [c]) rest ++
      (if prev.2 = true then [⟨joinSlash prev.1, []⟩] else []), ?_, hlt, ?_⟩
    · rw [openDirs, hrel, frames_append]
      simp [frames]
    · have hne : ∀ x ∈ c :: rest, x ≠ [] := fun x hx =>
        (hprev x (hrel ▸ List.mem_append_right _ hx)).ne_nil
      intro found hfound
      rcases List.mem_append.mp hfound with hfound | hfound
      · obtain ⟨a, c', b, rfl, rfl⟩ := mem_frames hfound
        have hmem : ∀ x ∈ c :: a, x ≠ [] := fun x hx =>
          hne x (List.cons_append .. ▸ List.mem_append_left (c' :: b) hx)
        have := joinSlash_extends parent (c :: a) (List.cons_ne_nil _ _) hmem
        rwa [List.append_assoc]
      · split at hfound
        · rw [List.mem_singleton.mp hfound, hrel]
          exact joinSlash_extends parent (c :: rest) (List.cons_ne_nil _ _) hne
        · cases hfound

/-- The search finds the record of a directory that is open. -/
theorem findParent_eq {above below : List Parent} (found : Parent)
    (habove : ∀ x ∈ above, ∃ q, found.dir = x.dir ++ q)
    (hbelow : ∀ x ∈ below, ∃ q, x.dir = found.dir ++ q ∧ q ≠ []) :
    findParent (above ++ found :: below) found.dir = above.length := by
  have hsearch : Sort.search (above ++ found :: below).length (fun i =>
      match (above ++ found :: below)[(above ++ found :: below).length - 1 - i]? with
      | some parent => decide (comparePath parent.dir found.dir ≤ 0)
      | none => false) = below.length := by
    have hlen : (above ++ found :: below).length = above.length + below.length + 1 := by
      rw [List.length_append, List.length_cons]
      omega
    apply Sort.search_eq (by omega)
    · intro m hm
      -- the record is below the one of the directory
      obtain ⟨x, hx⟩ : ∃ x, below[below.length - 1 - m]? = some x :=
        ⟨_, List.getElem?_eq_getElem (by omega)⟩
      have hget : (above ++ found :: below)[(above ++ found :: below).length - 1 - m]? =
          some x := by
        rw [List.getElem?_append_right (by omega), hlen,
          show above.length + below.length + 1 - 1 - m - above.length =
            below.length - 1 - m + 1 by omega, List.getElem?_cons_succ, hx]
      obtain ⟨q, hq, hne⟩ := hbelow x (List.mem_of_getElem? hx)
      have hpos := List.length_pos_iff.mpr hne
      simp only [hget, hq, comparePath_append_left, decide_eq_false_iff_not]
      omega
    · intro m hm hm'
      obtain ⟨x, hget, q, hq⟩ : ∃ x,
          (above ++ found :: below)[(above ++ found :: below).length - 1 - m]? = some x ∧
            ∃ q, found.dir = x.dir ++ q := by
        rcases Nat.eq_or_lt_of_le hm with rfl | hlt
        · refine ⟨found, ?_, [], (List.append_nil _).symm⟩
          rw [List.getElem?_append_right (by omega), hlen,
            show above.length + below.length + 1 - 1 - below.length - above.length = 0 by omega]
          rfl
        · have hi : (above ++ found :: below).length - 1 - m < above.length := by omega
          refine ⟨_, (List.getElem?_append_left hi).trans (List.getElem?_eq_getElem hi), ?_⟩
          exact habove _ (List.getElem_mem hi)
      simp only [hget, hq, comparePath_append, decide_eq_true_iff]
      omega
  change (above ++ found :: below).length - 1 - Sort.search _ _ = above.length
  rw [hsearch, List.length_append, List.length_cons]
  omega

end

/-! ## What is accepted -/

section

variable {parent : List Bytes} {name : Bytes} {prev : List Bytes × Bool} {isDir : Bool}

/-- One entry after another. -/
theorem handleChange_follows (hprev : ∀ c ∈ prev.1, Name c) (hparent : ∀ c ∈ parent, Name c)
    (hname : Name name) (h : Follows prev (parent ++ [name])) :
    handleChange (openDirs prev) (joinSlash (parent ++ [name])) isDir =
      .ok (openDirs (parent ++ [name], isDir)) := by
  obtain ⟨last, below, hsplit, hlt, hbelow⟩ := openDirs_split hprev hname h
  have habove : ∀ x ∈ frames [] parent, ∃ q, joinSlash parent = x.dir ++ q := by
    intro x hx
    obtain ⟨a, c, b, rfl, rfl⟩ := mem_frames hx
    have hne : ∀ y ∈ c :: b, y ≠ [] := fun y hy =>
      (hparent y (List.mem_append_right _ hy)).ne_nil
    obtain ⟨q, hq, -⟩ := joinSlash_extends a (c :: b) (List.cons_ne_nil _ _) hne
    exact ⟨q, hq⟩
  have hfind := findParent_eq ⟨joinSlash parent, last⟩ habove hbelow
  rw [handleChange_names hparent hname, hsplit]
  simp only [hfind, List.getElem?_append_right (Nat.le_refl _), Nat.sub_self,
    List.getElem?_cons_zero, ne_eq, not_true_eq_false, hlt, or_self, if_false, List.take_left]
  rw [openDirs, frames_append]
  cases isDir <;> simp [frames]

/-- An entry that does not follow the last one is refused. -/
theorem handleChange_refuses (isDir : Bool) (hprev : ∀ c ∈ prev.1, Name c)
    (hparent : ∀ c ∈ parent, Name c)
    (hname : Name name) (h : ¬ Follows prev (parent ++ [name])) :
    ∃ e, handleChange (openDirs prev) (joinSlash (parent ++ [name])) isDir = .error e := by
  rw [handleChange_names hparent hname]
  split
  · exact ⟨_, rfl⟩
  · rename_i found hfound
    obtain ⟨parent', hdir, hrec⟩ := mem_openDirs (List.mem_of_getElem? hfound)
    refine ⟨_, if_pos ?_⟩
    by_contra hok
    simp only [ne_eq, not_or, not_not] at hok
    obtain ⟨heq, hlt⟩ := hok
    have hnames' : ∀ c ∈ parent', Name c := by
      intro c hc
      apply hprev
      rcases hrec with ⟨hrel, -⟩ | ⟨rest, hrel⟩
      · exact hrel ▸ hc
      · exact hrel ▸ List.mem_append_left _ hc
    have hsame : parent = parent' :=
      joinSlash_injective (fun c hc => ⟨(hparent c hc).no_slash, (hparent c hc).ne_nil⟩)
        (fun c hc => ⟨(hnames' c hc).no_slash, (hnames' c hc).ne_nil⟩) (heq.trans hdir)
    subst hsame
    apply h
    refine ⟨parent, name, rfl, ?_⟩
    rcases hrec with hopen | ⟨rest, hrel⟩
    · exact .inl hopen
    · exact .inr ⟨found.last, rest, hrel, hlt⟩

/-- Places that can be listed: neither the root nor with an improper name. -/
def Proper (places : List (List Bytes × Bool)) : Prop :=
  ∀ place ∈ places, place.1 ≠ [] ∧ ∀ c ∈ place.1, Name c

theorem handleChanges_ok_iff {places : List (List Bytes × Bool)} (hplaces : Proper places) :
    ∀ (prev : List Bytes × Bool), (∀ c ∈ prev.1, Name c) →
      ((∃ parentDirs, handleChanges (openDirs prev)
          (places.map fun place => (joinSlash place.1, place.2)) = .ok parentDirs) ↔
        Listing prev places) := by
  induction places with
  | nil =>
      intro prev _
      exact ⟨fun _ => Listing.nil, fun _ => ⟨_, rfl⟩⟩
  | cons place places ih =>
      intro prev hprev
      obtain ⟨rel, isDir⟩ := place
      obtain ⟨hne, hnames⟩ := hplaces (rel, isDir) List.mem_cons_self
      obtain ⟨parent, name, rfl⟩ := (List.eq_nil_or_concat' rel).resolve_left hne
      have hparent : ∀ c ∈ parent, Name c := fun c hc => hnames c (List.mem_append_left _ hc)
      have hname : Name name := hnames name (List.mem_append_right _ (List.mem_singleton_self _))
      rw [Listing.cons_iff, List.map_cons, handleChanges]
      by_cases hfollows : Follows prev (parent ++ [name])
      · rw [handleChange_follows hprev hparent hname hfollows]
        have hrest := ih (fun p hp => hplaces p (List.mem_cons_of_mem _ hp))
          (parent ++ [name], isDir) hnames
        exact hrest.trans ⟨fun h => ⟨hfollows, h⟩, fun h => h.2⟩
      · obtain ⟨e, he⟩ := handleChange_refuses isDir hprev hparent hname hfollows
        rw [he]
        constructor
        · rintro ⟨_, h⟩
          cases h
        · rintro ⟨h, -⟩
          exact absurd h hfollows

/-- A new validator accepts the entries of exactly the listings. -/
theorem accepts_iff {places : List (List Bytes × Bool)} (hplaces : Proper places) :
    Accepts (places.map fun place => (joinSlash place.1, place.2)) ↔ Listing ([], true) places :=
  handleChanges_ok_iff hplaces ([], true) (List.forall_mem_nil _)

end

end BuilderShim.Fsutil
