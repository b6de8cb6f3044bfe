/-
  Fssync/Merge.lean --- the merged walk under `fsutil.Validator`.

  `syntheticDockerfileWalker` compares whole paths byte by byte, the validator name by
  name.  The two orders agree except where a name goes on, after the other one, with
  a byte less than the separator.  What the validator accepts is a listing of a tree
  (`Fsutil.accepts_iff`), so the question is when the merged walk is a listing of the
  context with the staging directory in it.
-/
import BuilderShim.Fssync.Interleave
import BuilderShim.Fsutil.Validator

set_option autoImplicit false

namespace BuilderShim.Fssync

open BuilderShim.Filepath
open BuilderShim.Fileutils
open BuilderShim.Foundation
open BuilderShim.Fsutil
open BuilderShim.Posix

/-! ## The calls of a callback that takes everything -/

def taking : List WalkEntry → WalkEntry → Verdict × List WalkEntry :=
  noting fun _ _ => .proceed

/-- The walker is called for what the walk of the context visits, and then finishes. -/
def mergedWalk (proxy : Option Proxy) (requested : List Bytes) (visited : List WalkEntry) :
    List WalkEntry :=
  let w : SyntheticDockerfileWalker (List WalkEntry) :=
    ⟨newSyntheticDockerfileWalker proxy requested, []⟩
  ((w.walks taking visited).finish taking).2.state

/-- What the validator reads of an entry. -/
def change (e : WalkEntry) : Bytes × Bool := (e.name, decide (e.info.type = .dir))

def earlierName (a b : Bytes × Bool) : Bool := decide (a.1 < b.1)

namespace SyntheticDockerfileWalker

/-- What was handed on at the end. -/
theorem walks_finish_taking (visited : List WalkEntry)
    (w : SyntheticDockerfileWalker (List WalkEntry)) :
    (((w.walks taking visited).finish taking).2.state).map change =
      w.state.map change ++
        mergeBefore earlierName (w.entries.map fun entry => change entry.emit)
          (visited.map change) := by
  have hoffer : (w.run taking visited).2.state =
      w.state ++ mergeBefore goesBefore (w.entries.map (·.emit)) visited := by
    rw [(run_offers visited w).state]
    exact congrArg Prod.snd (offer_noting_all fun _ _ => rfl)
  have hmap : (mergeBefore goesBefore (w.entries.map (·.emit)) visited).map change =
      mergeBefore earlierName ((w.entries.map (·.emit)).map change) (visited.map change) := by
    have hsame : ∀ a b, earlierName (change a) (change b) = goesBefore a b := fun _ _ => rfl
    exact mergeBefore_map change hsame _ _
  rw [← run_eq_finish_walks (fun _ _ => rfl), hoffer, List.map_append, hmap, List.map_map]
  rfl

end SyntheticDockerfileWalker

/-! ## A walk is a listing -/

section

/-- An entry of a walk as a place of a listing. -/
def place (e : Loc × Content) : Loc × Bool := (e.1, e.2.isDir)

theorem follows_of_lt {prev : Loc × Bool} {at_ r : Loc} {name name' : Bytes}
    (hprev : prev.1 = at_ ++ name :: r) (h : name < name') : Follows prev (at_ ++ [name']) :=
  ⟨at_, name', rfl, .inr ⟨name, r, hprev, h⟩⟩

mutual

/-- What follows everything in a tree may follow the walk of it. -/
theorem listing_walk (t : Tree) (ht : t.WF) (at_ : Loc) (prev : Loc × Bool)
    (rest : List (Loc × Bool)) (hprev : Follows prev at_)
    (hrest : ∀ last : Loc × Bool, (∃ r, last.1 = at_ ++ r) → Listing last rest) :
    Listing prev ((t.walk at_).map place ++ rest) := by
  cases t with
  | file perm data | symlink target =>
      exact Listing.cons_iff.mpr ⟨hprev, hrest _ ⟨[], (List.append_nil _).symm⟩⟩
  | dir perm children =>
      refine Listing.cons_iff.mpr ⟨hprev, ?_⟩
      exact listing_walkIn children ht at_ (at_, true) rest
        (fun child _ => ⟨at_, child.1, rfl, .inl ⟨rfl, rfl⟩⟩) ⟨[], (List.append_nil _).symm⟩ hrest

theorem listing_walkIn (children : List (Bytes × Tree)) (h : Tree.WFIn children) (at_ : Loc)
    (prev : Loc × Bool) (rest : List (Loc × Bool))
    (hfollows : ∀ child ∈ children, Follows prev (at_ ++ [child.1]))
    (hprev : ∃ r, prev.1 = at_ ++ r)
    (hrest : ∀ last : Loc × Bool, (∃ r, last.1 = at_ ++ r) → Listing last rest) :
    Listing prev ((Tree.walkIn children at_).map place ++ rest) := by
  cases children with
  | nil => exact hrest prev hprev
  | cons child children =>
      obtain ⟨name, t⟩ := child
      obtain ⟨_, hless, ht, hchildren⟩ := h
      rw [Tree.walkIn, List.map_append, List.append_assoc]
      apply listing_walk t ht (at_ ++ [name]) prev _ (hfollows _ List.mem_cons_self)
      rintro last ⟨r, hlast⟩
      have hbelow : last.1 = at_ ++ name :: r := by
        rw [hlast, List.append_assoc]
        rfl
      exact listing_walkIn children hchildren at_ last rest
        (fun child hchild => follows_of_lt hbelow (hless child hchild)) ⟨_, hbelow⟩ hrest

end

/-- The walk of what a directory holds is a listing. -/
theorem listing_root {children : List (Bytes × Tree)} (h : Tree.WFIn children) :
    Listing ([], true) ((Tree.walkIn children []).map place) := by
  have hall := listing_walkIn children h [] ([], true) []
    (fun child _ => ⟨[], child.1, rfl, .inl ⟨rfl, rfl⟩⟩) ⟨[], rfl⟩ (fun _ _ => Listing.nil)
  rwa [List.append_nil] at hall

/-- In a listing everything that a place lies in comes before it. -/
theorem ancestor_listed {prev : Loc × Bool} {places : List (Loc × Bool)}
    (h : Listing prev places) {p : Loc × Bool} (hp : p ∈ places) {front : Loc}
    (hfront : front <+: p.1) : front <+: prev.1 ∨ ∃ q ∈ places, q.1 = front := by
  induction places generalizing prev with
  | nil => cases hp
  | cons first places ih =>
      obtain ⟨hfollows, hplaces⟩ := Listing.cons_iff.mp h
      have hfirst : front <+: first.1 → front <+: prev.1 ∨ ∃ q ∈ first :: places, q.1 = front := by
        intro hle
        obtain ⟨parent, name, heq, hparent⟩ := hfollows
        have habove : parent <+: prev.1 := by
          rcases hparent with ⟨hprev, _⟩ | ⟨c, rest, hprev, _⟩
          · exact ⟨[], by rw [hprev, List.append_nil]⟩
          · exact ⟨c :: rest, hprev.symm⟩
        rw [heq] at hle
        rcases List.prefix_concat_iff.mp hle with heq' | hle
        · exact .inr ⟨first, List.mem_cons_self, heq.trans heq'.symm⟩
        · exact .inl (hle.trans habove)
      rcases List.mem_cons.mp hp with rfl | hp
      · exact hfirst hfront
      · rcases ih hplaces hp with hle | ⟨q, hq, heq⟩
        · exact hfirst hle
        · exact .inr ⟨q, List.mem_cons_of_mem _ hq, heq⟩

end

/-! ## The two orders -/

/-- The second name is the first one and more, and goes on with a byte less than the
separator. -/
def undercuts : Bytes → Bytes → Bool
  | [], b :: _ => decide (b < slash)
  | x :: short, y :: long => decide (x = y) && undercuts short long
  | _, [] => false

section

variable {a b c : Bytes}

theorem lt_of_undercuts (h : undercuts a b = true) : a < b := by
  induction a generalizing b with
  | nil =>
      cases b with
      | nil => cases h
      | cons y b => exact List.nil_lt_cons y b
  | cons x a ih =>
      cases b with
      | nil => cases h
      | cons y b =>
          obtain ⟨hxy, hab⟩ := Bool.and_eq_true_iff.mp h
          exact List.cons_lt_cons_iff.mpr (.inr ⟨of_decide_eq_true hxy, ih hab⟩)

/-- Then what is below the shorter name has the greater path. -/
theorem lt_slash_of_undercuts (h : undercuts a b = true) (below : Bytes) :
    b < a ++ slash :: below := by
  induction a generalizing b with
  | nil =>
      cases b with
      | nil => cases h
      | cons y b => exact List.cons_lt_cons_iff.mpr (.inl (of_decide_eq_true h))
  | cons x a ih =>
      cases b with
      | nil => cases h
      | cons y b =>
          obtain ⟨hxy, hab⟩ := Bool.and_eq_true_iff.mp h
          exact List.cons_lt_cons_iff.mpr (.inr ⟨(of_decide_eq_true hxy).symm, ih hab⟩)

/-- Otherwise paths are in the order of the names they start with. -/
theorem slash_lt_of_not_undercuts (hlt : a < b) (hslash : slash ∉ b) (h : undercuts a b = false)
    (below more : Bytes) : a ++ slash :: below < b ++ more := by
  induction a generalizing b with
  | nil =>
      cases b with
      | nil => exact absurd hlt (List.not_lt_nil _)
      | cons y b =>
          have hle : ¬ y < slash := of_decide_eq_false h
          have hne : slash ≠ y := fun heq => hslash (heq ▸ List.mem_cons_self)
          have hgt : slash < y := (Std.lt_trichotomy y slash).resolve_left hle
            |>.resolve_left fun heq => hne heq.symm
          exact List.cons_lt_cons_iff.mpr (.inl hgt)
  | cons x a ih =>
      cases b with
      | nil => exact absurd hlt (List.not_lt_nil _)
      | cons y b =>
          rcases List.cons_lt_cons_iff.mp hlt with hxy | ⟨rfl, hab⟩
          · exact List.cons_lt_cons_iff.mpr (.inl hxy)
          · have hrest : undercuts a b = false := by
              rw [undercuts, decide_eq_true rfl, Bool.true_and] at h
              exact h
            refine List.cons_lt_cons_iff.mpr (.inr ⟨rfl, ?_⟩)
            exact ih hab (fun hmem => hslash (List.mem_cons_of_mem _ hmem)) hrest

/-- A name between the two goes on with a byte less than the separator, too. -/
theorem undercuts_between (hac : a < c) (hcb : c < b) (h : undercuts a b = true) :
    undercuts a c = true := by
  induction a generalizing b c with
  | nil =>
      cases c with
      | nil => exact absurd hac (List.lt_irrefl _)
      | cons z c =>
          cases b with
          | nil => cases h
          | cons y b =>
              have hy : y < slash := of_decide_eq_true h
              rcases List.cons_lt_cons_iff.mp hcb with hzy | ⟨rfl, _⟩
              · exact decide_eq_true (Std.lt_trans hzy hy)
              · exact h
  | cons x a ih =>
      cases c with
      | nil => exact absurd hac (List.not_lt_nil _)
      | cons z c =>
          cases b with
          | nil => cases h
          | cons y b =>
              obtain ⟨hxy, hab⟩ := Bool.and_eq_true_iff.mp h
              obtain rfl := of_decide_eq_true hxy
              have hxz : x = z ∧ a < c ∧ c < b := by
                rcases List.cons_lt_cons_iff.mp hac with hxz | ⟨rfl, htail⟩
                · rcases List.cons_lt_cons_iff.mp hcb with hzx | ⟨rfl, _⟩
                  · exact absurd (Std.lt_trans hxz hzx) Std.lt_irrefl
                  · exact absurd hxz Std.lt_irrefl
                · rcases List.cons_lt_cons_iff.mp hcb with hzx | ⟨_, hcb⟩
                  · exact absurd hzx Std.lt_irrefl
                  · exact ⟨rfl, htail, hcb⟩
              obtain ⟨rfl, hac, hcb⟩ := hxz
              exact Bool.and_eq_true_iff.mpr ⟨decide_eq_true rfl, ih hac hcb hab⟩

end

/-! ## The places of the merged walk -/

/-- A place of a listing as the validator is told of it. -/
def named (p : Loc × Bool) : Bytes × Bool := (joinSlash p.1, p.2)

def earlierPath (a b : Loc × Bool) : Bool := decide (joinSlash a.1 < joinSlash b.1)

/-- The staging directory with files in it. -/
def stagingPlaces (names : List Bytes) : List (Loc × Bool) :=
  ([dockerfileStaging], true) :: names.map fun name => ([dockerfileStaging, name], false)

/-- What the walk of the context hands on: all but the marker. -/
def visitedPlaces (children : List (Bytes × Tree)) : List (Loc × Bool) :=
  ((Tree.walkIn children []).filter fun e => decide (e.1 ≠ [cacheCompletionMarker])).map place

/-- The merge leaves an entry at the top of the context in its place. -/
def Spared (child : Bytes × Tree) : Prop :=
  (child.1 = cacheCompletionMarker → child.2.childless = true) ∧
    (undercuts child.1 dockerfileStaging = true → child.2.childless = true) ∧
    undercuts dockerfileStaging child.1 = false

instance (child : Bytes × Tree) : Decidable (Spared child) :=
  inferInstanceAs (Decidable (_ ∧ _ ∧ _))

section

variable {proxy : Proxy} {requested : List Bytes} {children : List (Bytes × Tree)}
variable {names : List Bytes}

/-- The files of the staging directory that are emitted. -/
structure Staged (names : List Bytes) : Prop where
  ne_nil : names ≠ []
  sorted : names.Pairwise (· < ·)
  proper : ∀ name ∈ names, Name name

theorem change_syntheticEntries
    (h : ∃ file ∈ syntheticFiles proxy, file.path ∈ requested ∧ file.data ≠ []) :
    ∃ names, Staged names ∧
      (newSyntheticDockerfileWalker (some proxy) requested).map (fun entry => change entry.emit) =
        (stagingPlaces names).map named := by
  let wanted : SyntheticDockerfileEntry → Bool := fun file =>
    decide (file.path ∈ requested) && !file.data.isEmpty
  let first : SyntheticDockerfileEntry := ⟨syntheticDockerfile, proxy.dockerfile⟩
  let second : SyntheticDockerfileEntry := ⟨syntheticDockerignore, proxy.dockerignore⟩
  have hfiles : (syntheticFiles proxy).filter wanted ≠ [] := by
    obtain ⟨file, hmem, hreq, hdata⟩ := h
    have hwanted : wanted file = true := by
      rw [Bool.and_eq_true_iff]
      refine ⟨decide_eq_true hreq, ?_⟩
      cases hd : file.data with
      | nil => exact absurd hd hdata
      | cons b data => rfl
    exact List.ne_nil_of_mem (List.mem_filter.mpr ⟨hmem, hwanted⟩)
  have hwalker : newSyntheticDockerfileWalker (some proxy) requested =
      ⟨dockerfileStaging, []⟩ :: (syntheticFiles proxy).filter wanted := if_neg hfiles
  rw [hwalker]
  have hsplit : (syntheticFiles proxy).filter wanted = [first, second].filter wanted := rfl
  rw [hsplit] at hfiles ⊢
  cases hfirst : wanted first with
  | false =>
      cases hsecond : wanted second with
      | false => simp [hfirst, hsecond] at hfiles
      | true =>
          refine ⟨[lit "Dockerfile.dockerignore"], ⟨List.cons_ne_nil _ _, by decide, by decide⟩, ?_⟩
          simp only [List.filter_cons, hfirst, hsecond]
          rfl
  | true =>
      cases hsecond : wanted second with
      | false =>
          refine ⟨[lit "Dockerfile"], ⟨List.cons_ne_nil _ _, by decide, by decide⟩, ?_⟩
          simp only [List.filter_cons, hfirst, hsecond]
          rfl
      | true =>
          refine ⟨[lit "Dockerfile", lit "Dockerfile.dockerignore"],
            ⟨List.cons_ne_nil _ _, by decide, by decide⟩, ?_⟩
          simp only [List.filter_cons, hfirst, hsecond]
          rfl

theorem change_callbacks (hwf : Tree.WFIn children) (perm : Nat) :
    (callbacks (.dir perm children) []).map change = (visitedPlaces children).map named := by
  have hne : ∀ e ∈ Tree.walkIn children [], e.1 ≠ [] := by
    intro e he
    obtain ⟨name, rest, heq, _⟩ := Tree.get_of_mem_walkIn children hwf [] e he
    rw [heq]
    exact List.cons_ne_nil _ _
  have hroot : callbackAt [] (.dir perm) = none := if_pos (.inl rfl)
  rw [callbacks_dir, hroot]
  unfold callbacksIn visitedPlaces
  revert hne
  induction Tree.walkIn children [] with
  | nil => exact fun _ => rfl
  | cons e walk ih =>
      intro hne
      obtain ⟨hhead, hwalk⟩ := List.forall_mem_cons.mp hne
      have hrest := ih hwalk
      by_cases hmarker : e.1 = [cacheCompletionMarker]
      · have hnone : callbackAt e.1 e.2 = none := if_pos (.inr hmarker)
        rw [List.filter_cons_of_neg (by simp [hmarker]), List.filterMap_cons]
        simp only [hnone]
        exact hrest
      · have hsome : callbackAt e.1 e.2 = some ⟨joinSlash e.1, e.2.info, linkName e.2⟩ :=
          if_neg (not_or.mpr ⟨hhead, hmarker⟩)
        have htype : decide (e.2.info.type = .dir) = e.2.isDir := by
          cases e.2 <;> rfl
        rw [List.filter_cons_of_pos (by simp [hmarker]), List.filterMap_cons]
        simp only [hsome]
        refine congrArg₂ List.cons ?_ hrest
        rw [change, htype]
        rfl

theorem staging_name : Name dockerfileStaging := by decide

theorem stagingPlaces_proper (h : Staged names) : Proper (stagingPlaces names) := by
  unfold Proper stagingPlaces
  rw [List.forall_mem_cons, List.forall_mem_map]
  refine ⟨⟨List.cons_ne_nil _ _, List.forall_mem_singleton.mpr staging_name⟩, ?_⟩
  intro name hname
  exact ⟨List.cons_ne_nil _ _,
    List.forall_mem_cons.mpr ⟨staging_name, List.forall_mem_singleton.mpr (h.proper name hname)⟩⟩

/-- The places of the context under the names at its top. -/
theorem mem_visitedPlaces (hwf : Tree.WFIn children) {p : Loc × Bool}
    (h : p ∈ visitedPlaces children) :
    ∃ child ∈ children, ∃ rest, p.1 = child.1 :: rest ∧ (∀ c ∈ p.1, Name c) := by
  obtain ⟨e, he, rfl⟩ := List.mem_map.mp h
  obtain ⟨name, rest, heq, hnames, ⟨child, hmem, rfl⟩, _⟩ :=
    Tree.get_of_mem_walkIn children hwf [] e (List.mem_filter.mp he).1
  refine ⟨child, hmem, rest, heq, fun c hc => hnames c ?_⟩
  rwa [show (place e).1 = child.1 :: rest from heq] at hc

theorem merged_proper (hwf : Tree.WFIn children) (h : Staged names) :
    Proper (mergeBefore earlierPath (stagingPlaces names) (visitedPlaces children)) := by
  intro p hp
  rcases mem_mergeBefore_iff.mp hp with hp | hp
  · exact stagingPlaces_proper h p hp
  · obtain ⟨child, _, rest, heq, hnames⟩ := mem_visitedPlaces hwf hp
    refine ⟨?_, hnames⟩
    rw [heq]
    exact List.cons_ne_nil _ _

/-- The validator takes the merged walk if it is a listing. -/
theorem accepts_mergedWalk_iff (hwf : Tree.WFIn children) (perm : Nat)
    (h : ∃ file ∈ syntheticFiles proxy, file.path ∈ requested ∧ file.data ≠ []) :
    ∃ names, Staged names ∧
      (Accepts
          ((mergedWalk (some proxy) requested (callbacks (.dir perm children) [])).map change) ↔
        Listing ([], true)
          (mergeBefore earlierPath (stagingPlaces names) (visitedPlaces children))) := by
  obtain ⟨names, hnames, hentries⟩ := change_syntheticEntries h
  refine ⟨names, hnames, ?_⟩
  have hcalls : (mergedWalk (some proxy) requested (callbacks (.dir perm children) [])).map change =
      (mergeBefore earlierPath (stagingPlaces names) (visitedPlaces children)).map named := by
    have hsame : ∀ a b, earlierName (named a) (named b) = earlierPath a b := fun _ _ => rfl
    have hmap : (mergeBefore earlierPath (stagingPlaces names) (visitedPlaces children)).map named =
        mergeBefore earlierName ((stagingPlaces names).map named)
          ((visitedPlaces children).map named) :=
      mergeBefore_map named hsame _ _
    unfold mergedWalk
    rw [SyntheticDockerfileWalker.walks_finish_taking, hentries, change_callbacks hwf, hmap]
    rfl
  rw [hcalls]
  exact accepts_iff (merged_proper hwf hnames)

/-! ## When it is a listing -/

theorem joinSlash_singleton (name : Bytes) : joinSlash [name] = name := by
  simp [joinSlash]

theorem joinSlash_cons_cons (name c : Bytes) (rest : Loc) :
    joinSlash (name :: c :: rest) = name ++ slash :: joinSlash (c :: rest) := by
  simp [joinSlash, List.intercalate_cons_cons]

/-- What is at or below `b` has a greater path than what is at or below `a`. -/
theorem joinSlash_lt {a b : Bytes} (hlt : a < b) (hslash : slash ∉ b)
    (h : undercuts a b = false) (below above : Loc) :
    joinSlash (a :: below) < joinSlash (b :: above) := by
  have hpath : ∃ more, joinSlash (b :: above) = b ++ more := by
    cases above with
    | nil => exact ⟨[], by rw [joinSlash_singleton, List.append_nil]⟩
    | cons c above => exact ⟨_, joinSlash_cons_cons b c above⟩
  obtain ⟨more, hpath⟩ := hpath
  rw [hpath]
  cases below with
  | nil =>
      rw [joinSlash_singleton]
      exact List.lt_trans (lex_append_singleton a slash)
        (slash_lt_of_not_undercuts hlt hslash h [] more)
  | cons c below =>
      rw [joinSlash_cons_cons]
      exact slash_lt_of_not_undercuts hlt hslash h _ more

/-- The context without the marker. -/
def kept (children : List (Bytes × Tree)) : List (Bytes × Tree) :=
  children.filter fun child => decide (child.1 ≠ cacheCompletionMarker)

theorem mem_kept_iff {child : Bytes × Tree} :
    child ∈ kept children ↔ child ∈ children ∧ child.1 ≠ cacheCompletionMarker := by
  unfold kept
  rw [List.mem_filter, decide_eq_true_iff]

theorem kept_wf (hwf : Tree.WFIn children) : Tree.WFIn (kept children) := by
  obtain ⟨hsorted, hall⟩ := Tree.wfIn_iff.mp hwf
  exact Tree.wfIn_iff.mpr
    ⟨hsorted.filter _, fun child hchild => hall child (mem_kept_iff.mp hchild).1⟩

theorem visitedPlaces_eq (hwf : Tree.WFIn children)
    (hmarker : ∀ child ∈ children, child.1 = cacheCompletionMarker → child.2.childless = true) :
    visitedPlaces children = (Tree.walkIn (kept children) []).map place := by
  unfold visitedPlaces kept
  congr 1
  induction children with
  | nil => rfl
  | cons child children ih =>
      obtain ⟨name, t⟩ := child
      obtain ⟨hname, _, ht, hchildren⟩ := hwf
      obtain ⟨hfirst, hrest⟩ := List.forall_mem_cons.mp hmarker
      rw [Tree.walkIn, List.filter_append, ih hchildren hrest]
      by_cases heq : name = cacheCompletionMarker
      · rw [Tree.walk_of_childless (hfirst heq), List.filter_cons_of_neg (by simp [heq]),
          List.filter_cons_of_neg (by simp [heq])]
        rfl
      · have hall : ∀ e ∈ t.walk ([] ++ [name]), decide (e.1 ≠ [cacheCompletionMarker]) = true := by
          intro e he
          obtain ⟨names, hat, _⟩ := Tree.get_of_mem_walk t ht _ e he
          apply decide_eq_true
          rw [hat]
          exact fun h => heq (List.cons.inj h).1
        rw [List.filter_eq_self.mpr hall, List.filter_cons_of_pos (by simp [heq]), Tree.walkIn]

/-- What a directory at the top holds is visited. -/
theorem mem_visitedPlaces_below {child : Bytes × Tree} (hchild : child ∈ children)
    (h : child.2.childless = false) : ∃ name d, ([child.1, name], d) ∈ visitedPlaces children := by
  obtain ⟨name, content, hmem⟩ := Tree.mem_walk_of_not_childless h [child.1]
  refine ⟨name, content.isDir, List.mem_map.mpr ⟨([child.1, name], content), ?_, rfl⟩⟩
  refine List.mem_filter.mpr ⟨Tree.mem_walkIn_iff.mpr ⟨child, hchild, hmem⟩, decide_eq_true ?_⟩
  exact fun heq => List.cons_ne_nil _ _ (List.cons.inj heq).2

section

variable (hlist : Listing ([], true)
  (mergeBefore earlierPath (stagingPlaces names) (visitedPlaces children)))

include hlist

/-- A directory in the place of the marker would not be handed on before what it holds. -/
theorem marker_childless_of_listing {child : Bytes × Tree} (hchild : child ∈ children)
    (hmarker : child.1 = cacheCompletionMarker) : child.2.childless = true := by
  cases hless : child.2.childless with
  | true => rfl
  | false =>
      exfalso
      obtain ⟨name, d, hmem⟩ := mem_visitedPlaces_below hchild hless
      rw [hmarker] at hmem
      have hfront : [cacheCompletionMarker] <+: [cacheCompletionMarker, name] := ⟨[name], rfl⟩
      rcases ancestor_listed hlist (mem_mergeBefore_iff.mpr (.inr hmem)) hfront with h |
        ⟨q, hq, heq⟩
      · exact List.cons_ne_nil _ _ (List.prefix_nil.mp h)
      · rcases mem_mergeBefore_iff.mp hq with hq | hq
        · rcases List.mem_cons.mp hq with rfl | hq
          · exact absurd heq (by decide)
          · obtain ⟨file, _, rfl⟩ := List.mem_map.mp hq
            exact List.cons_ne_nil _ _ (List.cons.inj heq).2
        · obtain ⟨e, he, rfl⟩ := List.mem_map.mp hq
          exact of_decide_eq_true (List.mem_filter.mp he).2 heq

/-- The staging directory would come before what a directory with a shorter name holds. -/
theorem shorter_childless_of_listing {child : Bytes × Tree} (hchild : child ∈ children)
    (hunder : undercuts child.1 dockerfileStaging = true) : child.2.childless = true := by
  cases hless : child.2.childless with
  | true => rfl
  | false =>
      exfalso
      obtain ⟨name, d, hmem⟩ := mem_visitedPlaces_below hchild hless
      have hbefore : earlierPath ([dockerfileStaging], true) ([child.1, name], d) = true := by
        apply decide_eq_true
        rw [joinSlash_singleton, joinSlash_cons_cons, joinSlash_singleton]
        exact lt_slash_of_undercuts hunder name
      have hpair := (List.pairwise_cons.mp hlist.pairwise).2.sublist
        (sublist_mergeBefore hmem hbefore)
      have hlt := List.rel_of_pairwise_cons hpair List.mem_cons_self
      rcases List.cons_lt_cons_iff.mp hlt with h | ⟨h, _⟩
      · exact List.lt_asymm h (lt_of_undercuts hunder)
      · exact List.lt_irrefl _ (h ▸ lt_of_undercuts hunder)

end

/-- The entries at the top, on the two sides of the staging directory. -/
structure Sides (left right : List (Bytes × Tree)) : Prop where
  wf : Tree.WFIn (left ++ right)
  left_lt : ∀ child ∈ left, child.1 < dockerfileStaging
  lt_right : ∀ child ∈ right, dockerfileStaging < child.1

theorem exists_sides (hwf : Tree.WFIn children)
    (hstaging : ∀ child ∈ children, child.1 ≠ dockerfileStaging) :
    ∃ left right, children = left ++ right ∧ Sides left right := by
  induction children with
  | nil => exact ⟨[], [], rfl, hwf, List.forall_mem_nil _, List.forall_mem_nil _⟩
  | cons child children ih =>
      obtain ⟨hname, hless, ht, hchildren⟩ := hwf
      obtain ⟨hne, hrest⟩ := List.forall_mem_cons.mp hstaging
      rcases Std.lt_trichotomy child.1 dockerfileStaging with hlt | heq | hgt
      · obtain ⟨left, right, rfl, hsides⟩ := ih hchildren hrest
        exact ⟨child :: left, right, rfl, ⟨hname, hless, ht, hchildren⟩,
          List.forall_mem_cons.mpr ⟨hlt, hsides.left_lt⟩, hsides.lt_right⟩
      · exact absurd heq hne
      · refine ⟨[], child :: children, rfl, ⟨hname, hless, ht, hchildren⟩, List.forall_mem_nil _,
          List.forall_mem_cons.mpr ⟨hgt, fun c hc => List.lt_trans hgt (hless c hc)⟩⟩

namespace Sides

variable {left right : List (Bytes × Tree)} (hsides : Sides left right)

include hsides

theorem child_wf {child : Bytes × Tree} (h : child ∈ left ++ right) :
    Name child.1 ∧ child.2.WF :=
  (Tree.wfIn_iff.mp hsides.wf).2 child h

/-- What is on the left is handed on before the staging directory. -/
theorem merge_left
    (hshort : ∀ child ∈ left, undercuts child.1 dockerfileStaging = true →
      child.2.childless = true) :
    mergeBefore earlierPath (stagingPlaces names) ((Tree.walkIn (left ++ right) []).map place) =
      (Tree.walkIn left []).map place ++
        mergeBefore earlierPath (stagingPlaces names) ((Tree.walkIn right []).map place) := by
  rw [Tree.walkIn_append, List.map_append]
  apply mergeBefore_append
  rw [List.forall_mem_map]
  intro e he
  obtain ⟨child, hchild, hwalk⟩ := Tree.mem_walkIn_iff.mp he
  have hlt := hsides.left_lt child hchild
  have hpath : joinSlash e.1 < dockerfileStaging := by
    cases hunder : undercuts child.1 dockerfileStaging with
    | true =>
        rw [Tree.walk_of_childless (hshort child hchild hunder)] at hwalk
        rw [List.mem_singleton.mp hwalk, List.nil_append, joinSlash_singleton]
        exact hlt
    | false =>
        have hwf := (hsides.child_wf (List.mem_append_left _ hchild)).2
        obtain ⟨below, hat, _⟩ := Tree.get_of_mem_walk child.2 hwf _ e hwalk
        rw [hat, ← joinSlash_singleton dockerfileStaging]
        exact joinSlash_lt hlt staging_name.no_slash hunder below []
  apply decide_eq_false
  rw [joinSlash_singleton]
  exact List.lt_asymm hpath

/-- What is on the right comes after all of the staging directory. -/
theorem merge_right (hlong : ∀ child ∈ right, undercuts dockerfileStaging child.1 = false) :
    mergeBefore earlierPath (stagingPlaces names) ((Tree.walkIn right []).map place) =
      stagingPlaces names ++ (Tree.walkIn right []).map place := by
  apply mergeBefore_eq_append
  intro z hz
  rw [List.forall_mem_map]
  intro e he
  have hstaged : ∃ below, z.1 = dockerfileStaging :: below := by
    rcases List.mem_cons.mp hz with rfl | hz
    · exact ⟨[], rfl⟩
    · obtain ⟨file, _, rfl⟩ := List.mem_map.mp hz
      exact ⟨[file], rfl⟩
  obtain ⟨child, hchild, hwalk⟩ := Tree.mem_walkIn_iff.mp he
  obtain ⟨hname, hwf⟩ := hsides.child_wf (List.mem_append_right _ hchild)
  obtain ⟨above, hat, _⟩ := Tree.get_of_mem_walk child.2 hwf _ e hwalk
  obtain ⟨below, hbelow⟩ := hstaged
  apply decide_eq_true
  change joinSlash z.1 < joinSlash e.1
  rw [hbelow, hat]
  exact joinSlash_lt (hsides.lt_right child hchild) hname.no_slash (hlong child hchild) below above

/-- The first entry on the right would come between the staging directory and its files. -/
theorem longer_of_listing (hnames : Staged names) {front : List (Loc × Bool)}
    (hlist : Listing ([], true) (front ++
      mergeBefore earlierPath (stagingPlaces names) ((Tree.walkIn right []).map place)))
    {child : Bytes × Tree} (hchild : child ∈ right) :
    undercuts dockerfileStaging child.1 = false := by
  rw [← Bool.not_eq_true]
  intro hunder
  cases right with
  | nil => cases hchild
  | cons first right =>
      obtain ⟨name, t⟩ := first
      have hsorted := (List.pairwise_append.mp (Tree.wfIn_iff.mp hsides.wf).1).2.1
      have hfirst : dockerfileStaging < name := hsides.lt_right _ List.mem_cons_self
      have hunder : undercuts dockerfileStaging name = true := by
        rcases List.mem_cons.mp hchild with rfl | hchild
        · exact hunder
        · exact undercuts_between hfirst (List.rel_of_pairwise_cons hsorted hchild) hunder
      obtain ⟨file, files, rfl⟩ := List.exists_cons_of_ne_nil hnames.ne_nil
      have hwalk : ∃ tail, t.walk [name] = ([name], t.content) :: tail := by
        cases t <;> exact ⟨_, rfl⟩
      obtain ⟨tail, hwalk⟩ := hwalk
      have hfile : earlierPath ([dockerfileStaging, file], false) (place ([name], t.content)) =
          false := by
        apply decide_eq_false
        rw [joinSlash_cons_cons, joinSlash_singleton]
        exact (joinSlash_singleton name).symm ▸
          List.lt_asymm (lt_slash_of_undercuts hunder file)
      rw [Tree.walkIn, List.nil_append, hwalk, List.cons_append, List.map_cons] at hlist
      have hmem : ([dockerfileStaging, file], false) ∈ stagingPlaces (file :: files) :=
        List.mem_cons_of_mem _ List.mem_cons_self
      have hpair := (List.pairwise_cons.mp hlist.pairwise).2.sublist
        ((sublist_mergeBefore_cons hmem hfile).trans (List.sublist_append_right front _))
      have hlt := List.rel_of_pairwise_cons hpair List.mem_cons_self
      rcases List.cons_lt_cons_iff.mp hlt with h | ⟨h, _⟩
      · exact List.lt_asymm h hfirst
      · exact List.lt_irrefl _ (h ▸ hfirst)

/-- The merged walk is the walk of the context with the staging directory in it. -/
theorem listing_merged (hnames : Staged names)
    (hshort : ∀ child ∈ left, undercuts child.1 dockerfileStaging = true → child.2.childless = true)
    (hlong : ∀ child ∈ right, undercuts dockerfileStaging child.1 = false) :
    Listing ([], true) (mergeBefore earlierPath (stagingPlaces names)
      ((Tree.walkIn (left ++ right) []).map place)) := by
  let files : List (Bytes × Tree) := names.map fun name => (name, .file 0o644 [])
  have hfiles : (Tree.walkIn files [dockerfileStaging]).map place =
      names.map fun name => ([dockerfileStaging, name], false) := by
    clear hnames
    induction names with
    | nil => rfl
    | cons name names ih => exact congrArg (List.cons _) ih
  have hfilesWf : Tree.WFIn files := by
    refine Tree.wfIn_iff.mpr ⟨List.pairwise_map.mpr hnames.sorted, ?_⟩
    exact List.forall_mem_map.mpr fun name hname => ⟨hnames.proper name hname, trivial⟩
  obtain ⟨hsorted, hall⟩ := Tree.wfIn_iff.mp hsides.wf
  obtain ⟨hleft, hright, hboth⟩ := List.pairwise_append.mp hsorted
  have hwf : Tree.WFIn (left ++ (dockerfileStaging, .dir 0o755 files) :: right) := by
    refine Tree.wfIn_iff.mpr ⟨List.pairwise_append.mpr ⟨hleft, ?_, ?_⟩, ?_⟩
    · exact List.pairwise_cons.mpr ⟨hsides.lt_right, hright⟩
    · intro a ha b hb
      rcases List.mem_cons.mp hb with rfl | hb
      · exact hsides.left_lt a ha
      · exact hboth a ha b hb
    · intro child hchild
      rcases List.mem_append.mp hchild with h | h
      · exact hall child (List.mem_append_left _ h)
      · rcases List.mem_cons.mp h with rfl | h
        · exact ⟨staging_name, hfilesWf⟩
        · exact hall child (List.mem_append_right _ h)
  have hlisting := listing_root hwf
  rw [Tree.walkIn_append, Tree.walkIn, Tree.walk, List.map_append, List.map_append, List.map_cons,
    List.nil_append, hfiles] at hlisting
  rw [hsides.merge_left hshort, hsides.merge_right hlong]
  exact hlisting

end Sides

/-- The merged walk is a listing exactly if every entry at the top is spared. -/
theorem listing_merged_iff (hwf : Tree.WFIn children)
    (hstaging : ∀ child ∈ children, child.1 ≠ dockerfileStaging) (hnames : Staged names) :
    Listing ([], true) (mergeBefore earlierPath (stagingPlaces names) (visitedPlaces children)) ↔
      ∀ child ∈ children, Spared child := by
  have hkept : ∀ child ∈ kept children, child.1 ≠ dockerfileStaging := fun child hchild =>
    hstaging child (mem_kept_iff.mp hchild).1
  obtain ⟨left, right, hsplit, hsides⟩ := exists_sides (kept_wf hwf) hkept
  have hleft : ∀ child ∈ left, child ∈ children := fun child hchild =>
    (mem_kept_iff.mp (hsplit ▸ List.mem_append_left _ hchild)).1
  have hright : ∀ child ∈ right, child ∈ children := fun child hchild =>
    (mem_kept_iff.mp (hsplit ▸ List.mem_append_right _ hchild)).1
  constructor
  · intro hlist
    have hmarker : ∀ child ∈ children, child.1 = cacheCompletionMarker →
        child.2.childless = true := fun _ => marker_childless_of_listing hlist
    have hshort : ∀ child ∈ children, undercuts child.1 dockerfileStaging = true →
        child.2.childless = true := fun _ => shorter_childless_of_listing hlist
    rw [visitedPlaces_eq hwf hmarker, hsplit,
      hsides.merge_left fun child hchild => hshort child (hleft child hchild)] at hlist
    intro child hchild
    refine ⟨hmarker child hchild, hshort child hchild, ?_⟩
    by_cases heq : child.1 = cacheCompletionMarker
    · rw [heq]
      decide
    · have hmem : child ∈ left ++ right := hsplit ▸ mem_kept_iff.mpr ⟨hchild, heq⟩
      rcases List.mem_append.mp hmem with h | h
      · rw [← Bool.not_eq_true]
        exact fun hunder => List.lt_asymm (hsides.left_lt child h) (lt_of_undercuts hunder)
      · exact hsides.longer_of_listing hnames hlist h
  · intro hspared
    rw [visitedPlaces_eq hwf fun child hchild => (hspared child hchild).1, hsplit]
    exact hsides.listing_merged hnames
      (fun child hchild => (hspared child (hleft child hchild)).2.1)
      fun child hchild => (hspared child (hright child hchild)).2.2

end

/-- For every context without a staging directory of its own, and every request for synthetic
inputs that are there: the validator takes the whole merged walk if and only if nothing is
below the marker, nothing is below a name that the staging directory's goes on from with a byte
less than the separator, and no name goes on that way from the staging directory's. -/
theorem mergedWalk_accepted_iff (proxy : Proxy) (requested : List Bytes) (perm : Nat)
    (children : List (Bytes × Tree)) (hwf : Tree.WFIn children)
    (hstaging : ∀ child ∈ children, child.1 ≠ dockerfileStaging)
    (hrequested : ∃ file ∈ syntheticFiles proxy, file.path ∈ requested ∧ file.data ≠ []) :
    Accepts ((mergedWalk (some proxy) requested (callbacks (.dir perm children) [])).map change) ↔
      ∀ child ∈ children, Spared child := by
  obtain ⟨names, hnames, haccepts⟩ := accepts_mergedWalk_iff hwf perm hrequested
  rw [haccepts]
  exact listing_merged_iff hwf hstaging hnames

/-- A context with one directory and a file in it. -/
def oneDirectory (name : Bytes) : List (Bytes × Tree) :=
  [(name, .dir 0o755 [(lit "x", .file 0o644 [])])]

theorem oneDirectory_wf {name : Bytes} (h : Name name) : Tree.WFIn (oneDirectory name) :=
  ⟨h, List.forall_mem_nil _, ⟨by decide, List.forall_mem_nil _, trivial, trivial⟩, trivial⟩

/-- A request for a Dockerfile that the proxy has. -/
theorem dockerfile_requested : ∃ file ∈ syntheticFiles ⟨lit "FROM scratch", []⟩,
    file.path ∈ [syntheticDockerfile] ∧ file.data ≠ [] :=
  ⟨_, List.mem_cons_self, List.mem_cons_self, by decide⟩

theorem mergedWalk_accepted_src :
    Accepts ((mergedWalk (some ⟨lit "FROM scratch", []⟩) [syntheticDockerfile]
      (callbacks (.dir 0o755 (oneDirectory (lit "src"))) [])).map change) :=
  (mergedWalk_accepted_iff _ _ 0o755 _ (oneDirectory_wf (by decide))
    (List.forall_mem_singleton.mpr (by decide)) dockerfile_requested).mpr
    (List.forall_mem_singleton.mpr (by decide))

/-- The staging directory is put between `.com` and `.com/x`. -/
theorem mergedWalk_refused :
    ¬ Accepts ((mergedWalk (some ⟨lit "FROM scratch", []⟩) [syntheticDockerfile]
      (callbacks (.dir 0o755 (oneDirectory (lit ".com"))) [])).map change) := by
  have hwf : Tree.WFIn (oneDirectory (lit ".com")) := oneDirectory_wf (by decide)
  obtain ⟨names, hnames, haccepts⟩ := accepts_mergedWalk_iff hwf 0o755 dockerfile_requested
  rw [haccepts, listing_merged_iff hwf (List.forall_mem_singleton.mpr (by decide)) hnames]
  exact fun h => absurd (List.forall_mem_singleton.mp h) (by decide)

end BuilderShim.Fssync
