/-
  GoLib/Filepath.lean --- the functions of Go's `path/filepath` that the program
  calls, on Unix, over byte strings.

  The library works byte by byte; its documentation describes each function by
  the elements between separators, and that is the form taken here.  A cleaned
  path is `render rooted parts` with `parts` in normal form (`CleanParts`): the
  parent references first, and only when the path is relative, then ordinary
  names.  Every fact below is about that form.
-/
import Mathlib.Data.List.Induction
import BuilderShim.Foundation.Bytes

set_option autoImplicit false

namespace BuilderShim.Filepath

/-- `filepath.Separator`. -/
def slash : UInt8 := 47

def dot : Bytes := [46]

def dotdot : Bytes := [46, 46]

/-- The elements between separators, empty ones included (`strings.Split`). -/
def split (p : Bytes) : List Bytes := p.splitOn slash

/-- `strings.Join(elements, "/")`. -/
def joinSlash (elements : List Bytes) : Bytes := [slash].intercalate elements

/-- `filepath.IsAbs`. -/
def isAbs (p : Bytes) : Bool := p.head? == some slash

/-- One element of `filepath.Clean`; the elements kept so far, last one first. -/
def cleanStep (rooted : Bool) (kept : List Bytes) (element : Bytes) : List Bytes :=
  if element = [] ∨ element = dot then kept
  else if element = dotdot then
    match kept with
    | [] => if rooted then [] else [dotdot]
    | top :: rest => if top = dotdot then dotdot :: kept else rest
  else element :: kept

def cleanParts (rooted : Bool) (elements : List Bytes) : List Bytes :=
  (elements.foldl (cleanStep rooted) []).reverse

/-- A path from its cleaned elements; the empty relative path is `"."`. -/
def render (rooted : Bool) (parts : List Bytes) : Bytes :=
  if rooted then slash :: joinSlash parts
  else if parts = [] then dot
  else joinSlash parts

/-- `filepath.Clean`. -/
def clean (p : Bytes) : Bytes := render (isAbs p) (cleanParts (isAbs p) (split p))

/-- `filepath.Join` of two elements: empty ones are ignored, the result is cleaned. -/
def join (a b : Bytes) : Bytes :=
  if a ≠ [] then clean (a ++ slash :: b)
  else if b ≠ [] then clean b
  else []

/-- `filepath.IsLocal`.  A path with a dot element is cleaned first. -/
def isLocal (p : Bytes) : Bool :=
  let q := if (split p).any (fun e => e == dot || e == dotdot) then clean p else p
  !isAbs p && p != [] && q != dotdot && !(dotdot ++ [slash]).isPrefixOf q

/-- `filepath.Dir`: everything up to the last separator, cleaned. -/
def dir (p : Bytes) : Bytes :=
  clean (p.reverse.dropWhile (· != slash)).reverse

/-- `filepath.Base`: the last element, trailing separators removed. -/
def base (p : Bytes) : Bytes :=
  if p = [] then dot
  else
    let last := ((p.reverse.dropWhile (· == slash)).takeWhile (· != slash)).reverse
    if last = [] then [slash] else last

/-- Remove the elements two paths start with in common. -/
def stripCommon : List Bytes → List Bytes → List Bytes × List Bytes
  | b :: bs, t :: ts => if b = t then stripCommon bs ts else (b :: bs, t :: ts)
  | bs, ts => (bs, ts)

/-- The elements `filepath.Rel` compares: `"/"` is one empty element, and the
base `"."` has none. -/
def relElements (p : Bytes) : List Bytes :=
  if p = [slash] then [[]] else split p

/-- `filepath.Rel`; `none` is its error. -/
def rel (basepath targpath : Bytes) : Option Bytes :=
  let b := clean basepath
  let t := clean targpath
  if t = b then some dot
  else if isAbs b ≠ isAbs t then none
  else
    let rest := stripCommon (if b = dot then [] else relElements b) (relElements t)
    match rest.1 with
    | [] => some (joinSlash rest.2)
    | b :: bs =>
        if b = dotdot then none
        else some (joinSlash ((b :: bs).map (fun _ => dotdot) ++ rest.2))

/-! ## Ordinary names -/

/-- A name that stands for a directory entry: no separator, not empty, and not
one of the two dot elements. -/
structure Name (c : Bytes) : Prop where
  ne_nil : c ≠ []
  ne_dot : c ≠ dot
  ne_dotdot : c ≠ dotdot
  no_slash : slash ∉ c

instance (c : Bytes) : Decidable (Name c) :=
  decidable_of_iff (c ≠ [] ∧ c ≠ dot ∧ c ≠ dotdot ∧ slash ∉ c)
    ⟨fun h => ⟨h.1, h.2.1, h.2.2.1, h.2.2.2⟩, fun h => ⟨h.1, h.2, h.3, h.4⟩⟩

/-- The normal form of a cleaned path's elements. -/
structure CleanParts (rooted : Bool) (parts : List Bytes) : Prop where
  shape : ∃ k names, parts = List.replicate k dotdot ++ names ∧ (∀ c ∈ names, Name c) ∧
    (rooted = true → k = 0)

theorem dotdot_no_slash : slash ∉ dotdot := by decide

variable {rooted : Bool} {parts : List Bytes} {c : Bytes}

theorem CleanParts.mem (h : CleanParts rooted parts) (hc : c ∈ parts) : c = dotdot ∨ Name c := by
  obtain ⟨k, names, rfl, hnames, _⟩ := h.shape
  exact (List.mem_append.mp hc).imp List.eq_of_mem_replicate (hnames c)

theorem CleanParts.no_slash (h : CleanParts rooted parts) :
    ∀ c ∈ parts, slash ∉ c := fun c hc => by
  rcases h.mem hc with rfl | hname
  · exact dotdot_no_slash
  · exact hname.no_slash

theorem CleanParts.not_skipped (h : CleanParts rooted parts) :
    ∀ c ∈ parts, ¬ (c = [] ∨ c = dot) := fun c hc => by
  rcases h.mem hc with rfl | hname
  · decide
  · exact not_or.mpr ⟨hname.ne_nil, hname.ne_dot⟩

theorem CleanParts.ne_nil (h : CleanParts rooted parts) :
    ∀ c ∈ parts, c ≠ [] := fun c hc hnil => h.not_skipped c hc (.inl hnil)

variable {names : List Bytes}

theorem CleanParts.append (h : CleanParts rooted parts) (hnames : ∀ c ∈ names, Name c) :
    CleanParts rooted (parts ++ names) := by
  obtain ⟨k, old, rfl, hold, hk⟩ := h.shape
  refine ⟨k, old ++ names, by rw [List.append_assoc], ?_, hk⟩
  intro c hc
  exact (List.mem_append.mp hc).elim (hold c) (hnames c)

theorem CleanParts.front (h : CleanParts rooted (parts ++ [c])) : CleanParts rooted parts := by
  obtain ⟨k, names, heq, hnames, hk⟩ := h.shape
  rcases List.eq_nil_or_concat names with rfl | ⟨front, last, rfl⟩
  · -- only parent references: one fewer of them
    rw [List.append_nil] at heq
    have hlen : k = parts.length + 1 := by
      have := congrArg List.length heq
      simp at this
      omega
    subst hlen
    rw [List.replicate_succ'] at heq
    refine ⟨parts.length, [], ?_, by simp, fun hr => absurd (hk hr) (by simp)⟩
    rw [List.append_nil]
    exact (List.append_inj' heq rfl).1
  · rw [List.concat_eq_append, ← List.append_assoc] at heq
    refine ⟨k, front, (List.append_inj' heq rfl).1, fun x hx => hnames x (by simp [hx]), hk⟩

theorem cleanParts_of_names (h : ∀ c ∈ names, Name c) :
    CleanParts rooted names :=
  ⟨0, names, rfl, h, fun _ => rfl⟩

/-! ## Cleaning -/

theorem foldl_cleanStep_names (h : ∀ c ∈ names, Name c) (kept : List Bytes) :
    names.foldl (cleanStep rooted) kept = names.reverse ++ kept := by
  induction names generalizing kept with
  | nil => rfl
  | cons c names ih =>
      have hc := h c List.mem_cons_self
      have hstep : cleanStep rooted kept c = c :: kept := by
        simp [cleanStep, hc.ne_nil, hc.ne_dot, hc.ne_dotdot]
      rw [List.foldl_cons, hstep, ih fun x hx => h x (List.mem_cons_of_mem _ hx)]
      simp

theorem foldl_cleanStep_dotdots (k : Nat) (j : Nat) :
    (List.replicate k dotdot).foldl (cleanStep false) (List.replicate j dotdot) =
      List.replicate (k + j) dotdot := by
  induction k generalizing j with
  | zero => simp
  | succ k ih =>
      have hstep : cleanStep false (List.replicate j dotdot) dotdot =
          List.replicate (j + 1) dotdot := by
        cases j <;> simp [cleanStep, List.replicate_succ, dotdot, dot]
      rw [List.replicate_succ, List.foldl_cons, hstep, ih]
      congr 1
      omega

/-- Cleaning leaves a normal form as it is. -/
theorem cleanParts_eq (h : CleanParts rooted parts) :
    cleanParts rooted parts = parts := by
  obtain ⟨k, names, rfl, hnames, hk⟩ := h.shape
  cases rooted with
  | true =>
      rw [hk rfl]
      simp [cleanParts, foldl_cleanStep_names hnames]
  | false =>
      have := foldl_cleanStep_dotdots k 0
      simp only [List.replicate_zero, Nat.add_zero] at this
      simp [cleanParts, List.foldl_append, this, foldl_cleanStep_names hnames]

variable {kept : List Bytes}

/-- The elements kept while cleaning, last one first, are in normal form. -/
theorem cleanStep_normal (h : CleanParts rooted kept.reverse) (hc : slash ∉ c) :
    CleanParts rooted (cleanStep rooted kept c).reverse := by
  unfold cleanStep
  split
  · exact h
  rename_i hne
  split
  · cases kept with
    | nil =>
        cases rooted with
        | true => exact h
        | false => exact ⟨1, [], rfl, by simp, by simp⟩
    | cons top rest =>
        obtain ⟨k, names, heq, hnames, hk⟩ := h.shape
        simp only [List.reverse_cons] at heq
        rcases List.eq_nil_or_concat names with rfl | ⟨front, last, rfl⟩
        · -- only parent references so far
          rw [List.append_nil] at heq
          have htop : top = dotdot := by
            have : top ∈ List.replicate k dotdot := by rw [← heq]; simp
            exact List.eq_of_mem_replicate this
          simp only [htop, if_true]
          refine ⟨k + 1, [], ?_, by simp, ?_⟩
          · rw [List.append_nil, List.replicate_succ', ← heq, htop]
            simp
          · intro hr
            have := hk hr
            subst this
            simp at heq
        · have hsplit : rest.reverse = List.replicate k dotdot ++ front ∧ top = last := by
            rw [List.concat_eq_append, ← List.append_assoc] at heq
            exact ⟨List.append_inj_left' heq rfl, by
              have := List.append_inj_right' heq rfl
              simpa using this⟩
          have hlast : Name last := hnames last (by simp)
          have htop : top ≠ dotdot := by rw [hsplit.2]; exact hlast.ne_dotdot
          simp only [htop, if_false]
          refine ⟨k, front, hsplit.1, fun c hc => hnames c (by simp [hc]), hk⟩
  · rename_i hdd
    simp only [not_or] at hne
    obtain ⟨k, names, heq, hnames, hk⟩ := h.shape
    refine ⟨k, names ++ [c], ?_, ?_, hk⟩
    · simp [heq]
    · intro x hx
      rcases List.mem_append.mp hx with hx | hx
      · exact hnames x hx
      · rw [List.mem_singleton.mp hx]
        exact ⟨hne.1, hne.2, hdd, hc⟩

theorem foldl_cleanStep_normal {elements : List Bytes} (hel : ∀ c ∈ elements, slash ∉ c)
    (h : CleanParts rooted kept.reverse) :
    CleanParts rooted (elements.foldl (cleanStep rooted) kept).reverse := by
  induction elements generalizing kept with
  | nil => exact h
  | cons c elements ih =>
      exact ih (fun x hx => hel x (List.mem_cons_of_mem _ hx))
        (cleanStep_normal h (hel c List.mem_cons_self))

/-! ## Splitting and joining -/

theorem split_joinSlash (h : ∀ c ∈ parts, slash ∉ c) (hne : parts ≠ []) :
    split (joinSlash parts) = parts :=
  List.splitOn_intercalate slash h hne

variable {front : List Bytes}

theorem joinSlash_append {back : List Bytes} (hf : front ≠ []) (hb : back ≠ []) :
    joinSlash (front ++ back) = joinSlash front ++ slash :: joinSlash back := by
  induction front with
  | nil => exact absurd rfl hf
  | cons c front ih =>
      cases front with
      | nil =>
          obtain ⟨b, bs, rfl⟩ := List.exists_cons_of_ne_nil hb
          simp [joinSlash, List.intercalate_cons_cons]
      | cons d front =>
          have := ih (by simp)
          simp only [joinSlash, List.cons_append, List.intercalate_cons_cons] at this ⊢
          rw [this]
          simp

theorem split_append_slash (a b : Bytes) : split (a ++ slash :: b) = split a ++ split b :=
  List.splitOn_append_cons_self a b

variable {p : Bytes}

theorem no_slash_of_mem_split (h : c ∈ split p) : slash ∉ c := by
  induction p generalizing c with
  | nil =>
      simp only [split, List.splitOn_nil, List.mem_singleton] at h
      simp [h]
  | cons x p ih =>
      simp only [split, List.splitOn_cons_eq_if_modifyHead] at h ih
      split at h
      · rcases List.mem_cons.mp h with rfl | h
        · simp
        · exact ih h
      · rename_i hx
        obtain ⟨d, ds, hd⟩ := List.exists_cons_of_ne_nil (List.splitOn_ne_nil slash p)
        rw [hd, List.modifyHead_cons] at h
        have hxs : slash ≠ x := fun he => hx (by simp [he])
        rcases List.mem_cons.mp h with rfl | h
        · have := ih (c := d) (by rw [hd]; exact List.mem_cons_self)
          simp [hxs, this]
        · exact ih (by rw [hd]; exact List.mem_cons_of_mem _ h)

theorem joinSlash_eq_nil_iff (h : ∀ c ∈ parts, c ≠ []) :
    joinSlash parts = [] ↔ parts = [] := by
  constructor
  · intro hj
    cases parts with
    | nil => rfl
    | cons c parts =>
        have hc := h c List.mem_cons_self
        cases parts with
        | nil => exact absurd (by simpa [joinSlash] using hj) hc
        | cons d parts => simp [joinSlash, List.intercalate_cons_cons] at hj
  · rintro rfl
    rfl

theorem joinSlash_injective {a b : List Bytes} (ha : ∀ c ∈ a, slash ∉ c ∧ c ≠ [])
    (hb : ∀ c ∈ b, slash ∉ c ∧ c ≠ []) (h : joinSlash a = joinSlash b) : a = b := by
  by_cases hane : a = []
  · subst hane
    exact ((joinSlash_eq_nil_iff fun c hc => (hb c hc).2).mp h.symm).symm
  by_cases hbne : b = []
  · subst hbne
    exact (joinSlash_eq_nil_iff fun c hc => (ha c hc).2).mp h
  rw [← split_joinSlash (fun c hc => (ha c hc).1) hane, h,
    split_joinSlash (fun c hc => (hb c hc).1) hbne]

theorem isAbs_joinSlash (h : ∀ c ∈ parts, slash ∉ c) (hne : ∀ c ∈ parts, c ≠ []) :
    isAbs (joinSlash parts) = false := by
  cases parts with
  | nil => rfl
  | cons c parts =>
      obtain ⟨x, c, rfl⟩ := List.exists_cons_of_ne_nil (hne c List.mem_cons_self)
      have hx : x ≠ slash := by
        have := h (x :: c) List.mem_cons_self
        simp only [List.mem_cons, not_or] at this
        exact fun he => this.1 he.symm
      cases parts with
      | nil => simp [isAbs, joinSlash, hx]
      | cons d parts => simp [isAbs, joinSlash, List.intercalate_cons_cons, hx]

/-! ## Rendered paths -/

@[simp] theorem isAbs_render (h : CleanParts rooted parts) :
    isAbs (render rooted parts) = rooted := by
  cases rooted with
  | true => simp [render, isAbs]
  | false =>
      by_cases hp : parts = []
      · subst hp
        rfl
      · simp only [render, hp, if_false, Bool.false_eq_true]
        exact isAbs_joinSlash h.no_slash h.ne_nil

theorem render_ne_nil (h : CleanParts rooted parts) :
    render rooted parts ≠ [] := by
  cases rooted with
  | true => simp [render]
  | false =>
      by_cases hp : parts = []
      · subst hp
        decide
      · simp only [render, hp, if_false, Bool.false_eq_true]
        exact fun hj => hp ((joinSlash_eq_nil_iff h.ne_nil).mp hj)

theorem length_le_joinSlash (h : ∀ c ∈ parts, c ≠ []) :
    parts.length ≤ (joinSlash parts).length := by
  induction parts with
  | nil => simp
  | cons c parts ih =>
      have hc : 0 < c.length := List.length_pos_iff.mpr (h c List.mem_cons_self)
      have ih := ih fun y hy => h y (List.mem_cons_of_mem _ hy)
      by_cases hp : parts = []
      · subst hp
        have hsingle : joinSlash [c] = c := by simp [joinSlash]
        rw [hsingle]
        exact hc
      · have happ := joinSlash_append (List.cons_ne_nil c []) hp
        rw [List.singleton_append] at happ
        rw [happ]
        simp only [List.length_append, List.length_cons]
        omega

/-- A path has no more elements than bytes. -/
theorem length_le_render (h : CleanParts rooted parts) :
    parts.length ≤ (render rooted parts).length := by
  have hj := length_le_joinSlash h.ne_nil
  unfold render
  split
  · rw [List.length_cons]
    omega
  · split
    · rename_i hp
      simp [hp]
    · exact hj

/-- The elements of a rendered path: its parts, behind elements that cleaning and
path resolution skip. -/
theorem split_render (h : CleanParts rooted parts) :
    ∃ skipped, split (render rooted parts) = skipped ++ parts ∧
      ∀ c ∈ skipped, c = [] ∨ c = dot := by
  cases rooted with
  | true =>
      have hsplit : split (render true parts) = [] :: split (joinSlash parts) := by
        have := split_append_slash [] (joinSlash parts)
        simpa [render, split] using this
      by_cases hp : parts = []
      · subst hp
        exact ⟨[[], []], by rw [hsplit]; rfl, by simp⟩
      · exact ⟨[[]], by rw [hsplit, split_joinSlash h.no_slash hp]; rfl, by simp⟩
  | false =>
      by_cases hp : parts = []
      · subst hp
        exact ⟨[dot], by decide, by simp⟩
      · refine ⟨[], ?_, by simp⟩
        simp only [render, hp, if_false, Bool.false_eq_true, List.nil_append]
        exact split_joinSlash h.no_slash hp

theorem foldl_cleanStep_skip {skipped : List Bytes} (h : ∀ c ∈ skipped, c = [] ∨ c = dot)
    (kept : List Bytes) :
    skipped.foldl (cleanStep rooted) kept = kept := by
  induction skipped with
  | nil => rfl
  | cons c skipped ih =>
      have hstep : cleanStep rooted kept c = kept := by
        simp [cleanStep, h c List.mem_cons_self]
      rw [List.foldl_cons, hstep]
      exact ih fun x hx => h x (List.mem_cons_of_mem _ hx)

theorem foldl_cleanStep_split_render (h : CleanParts rooted parts) :
    (split (render rooted parts)).foldl (cleanStep rooted) [] = parts.reverse := by
  obtain ⟨skipped, hsplit, hskip⟩ := split_render h
  rw [hsplit, List.foldl_append, foldl_cleanStep_skip hskip]
  have := cleanParts_eq h
  rw [cleanParts] at this
  rw [← this, List.reverse_reverse, this]

/-- `Clean` is the identity on rendered normal forms. -/
theorem clean_render (h : CleanParts rooted parts) :
    clean (render rooted parts) = render rooted parts := by
  unfold clean cleanParts
  rw [isAbs_render h, foldl_cleanStep_split_render h, List.reverse_reverse]

theorem cleanParts_normal (p : Bytes) :
    CleanParts (isAbs p) (cleanParts (isAbs p) (split p)) :=
  foldl_cleanStep_normal (fun c hc => no_slash_of_mem_split hc)
    ⟨0, [], rfl, by simp, fun _ => rfl⟩

/-- Every cleaned path is the rendering of a normal form. -/
theorem clean_eq_render (p : Bytes) :
    ∃ parts, CleanParts (isAbs p) parts ∧ clean p = render (isAbs p) parts :=
  ⟨cleanParts (isAbs p) (split p), cleanParts_normal p, rfl⟩

theorem clean_clean (p : Bytes) : clean (clean p) = clean p := by
  obtain ⟨parts, hparts, heq⟩ := clean_eq_render p
  rw [heq, clean_render hparts]

/-! ### Below the root -/

theorem clean_slash (p : Bytes) :
    clean (slash :: p) = render true (cleanParts true (split p)) := by
  have hsplit : split (slash :: p) = [] :: split p := split_append_slash [] p
  rw [clean, hsplit]
  rfl

theorem clean_slash_slash (p : Bytes) : clean (slash :: slash :: p) = clean (slash :: p) := by
  rw [clean_slash, clean]
  rfl

theorem cleanStep_back {top : Bytes} (rest : List Bytes) (h : top ≠ dotdot) :
    cleanStep rooted (top :: rest) dotdot = rest := by
  unfold cleanStep
  rw [if_neg (by decide), if_pos rfl]
  exact if_neg h

theorem cleanStep_push (hskip : ¬ (c = [] ∨ c = dot))
    (h : c = dotdot → ∃ rest, kept = dotdot :: rest) :
    cleanStep rooted kept c = c :: kept := by
  unfold cleanStep
  rw [if_neg hskip]
  split
  · rename_i hparent
    obtain ⟨rest, rfl⟩ := h hparent
    rw [hparent]
    exact if_pos rfl
  · rfl

/-- Cleaning from the root goes on from what is kept of a relative path as from the path. -/
theorem cleanStep_root (h : ∀ c ∈ kept, ¬ (c = [] ∨ c = dot)) (c : Bytes) :
    (cleanStep false kept c).reverse.foldl (cleanStep true) [] =
      cleanStep true (kept.reverse.foldl (cleanStep true) []) c := by
  by_cases hskip : c = [] ∨ c = dot
  · unfold cleanStep
    rw [if_pos hskip, if_pos hskip]
  by_cases hback : c = dotdot ∧ ∀ rest, kept ≠ dotdot :: rest
  · obtain ⟨rfl, hback⟩ := hback
    cases kept with
    | nil => rfl
    | cons top rest =>
        -- a name that is taken back in both
        have htop : top ≠ dotdot := fun heq => hback rest (by rw [heq])
        rw [cleanStep_back rest htop, List.reverse_cons, List.foldl_append, List.foldl_cons,
          List.foldl_nil, cleanStep_push (h top List.mem_cons_self) fun heq => absurd heq htop,
          cleanStep_back _ htop]
  · rw [cleanStep_push hskip fun heq => by simpa [heq] using hback, List.reverse_cons,
      List.foldl_append]
    rfl

theorem cleanParts_root (elements : List Bytes) (hel : ∀ c ∈ elements, slash ∉ c) :
    cleanParts true (cleanParts false elements) = cleanParts true elements := by
  induction elements using List.reverseRecOn with
  | nil => rfl
  | append_singleton elements c ih =>
      have hfront : ∀ c ∈ elements, slash ∉ c := fun c hc => hel c (List.mem_append_left _ hc)
      have hnormal : CleanParts false (cleanParts false elements) :=
        foldl_cleanStep_normal hfront ⟨0, [], rfl, by simp, fun _ => rfl⟩
      have hstep := cleanStep_root
        (fun c hc => hnormal.not_skipped c (List.mem_reverse.mpr hc)) c
      have hroot := List.reverse_injective (ih hfront)
      unfold cleanParts at hroot ⊢
      rw [List.foldl_append, List.foldl_append]
      exact congrArg List.reverse (hstep.trans (congrArg (cleanStep true · c) hroot))

/-- Below the root, a path is what it is when it is cleaned. -/
theorem clean_slash_clean (p : Bytes) : clean (slash :: clean p) = clean (slash :: p) := by
  have hnormal := cleanParts_normal p
  obtain ⟨skipped, hsplit, hskip⟩ := split_render hnormal
  have hclean : cleanParts true (split (clean p)) =
      cleanParts true (cleanParts (isAbs p) (split p)) := by
    rw [cleanParts, clean, hsplit, List.foldl_append, foldl_cleanStep_skip hskip]
    rfl
  rw [clean_slash, clean_slash, hclean]
  cases habs : isAbs p with
  | true =>
      rw [habs] at hnormal
      rw [cleanParts_eq hnormal]
  | false => rw [cleanParts_root _ fun c hc => no_slash_of_mem_split hc]

/-- Joining names below a cleaned path appends them to its elements. -/
theorem join_render (names : List Bytes) (h : CleanParts rooted parts)
    (hnames : ∀ c ∈ names, Name c) (hne : names ≠ []) :
    join (render rooted parts) (joinSlash names) = render rooted (parts ++ names) := by
  have habs : isAbs (render rooted parts ++ slash :: joinSlash names) = rooted := by
    obtain ⟨x, xs, hx⟩ := List.exists_cons_of_ne_nil (render_ne_nil h)
    have := isAbs_render h
    rw [hx] at this ⊢
    simpa [isAbs] using this
  unfold join
  rw [if_pos (render_ne_nil h), clean, habs, cleanParts, split_append_slash,
    split_joinSlash (fun c hc => (hnames c hc).no_slash) hne, List.foldl_append,
    foldl_cleanStep_split_render h, foldl_cleanStep_names hnames]
  simp

theorem render_names (hne : names ≠ []) :
    render false names = joinSlash names := by
  simp [render, hne]

/-- A cleaned path that `IsLocal` accepts and that is not `"."` is a non-empty
list of names. -/
theorem names_of_isLocal (hlocal : isLocal (clean p) = true) (hdot : clean p ≠ dot) :
    ∃ names, names ≠ [] ∧ (∀ c ∈ names, Name c) ∧ clean p = joinSlash names := by
  obtain ⟨parts, hparts, heq⟩ := clean_eq_render p
  have hq : (if (split (clean p)).any (fun e => e == dot || e == dotdot) then clean (clean p)
      else clean p) = clean p := by
    rw [clean_clean]
    simp
  simp only [isLocal, hq, Bool.and_eq_true, Bool.not_eq_true', bne_iff_ne, ne_eq] at hlocal
  obtain ⟨⟨⟨habs, _⟩, hdd⟩, hpre⟩ := hlocal
  rw [heq, isAbs_render hparts] at habs
  rw [habs] at hparts heq
  obtain ⟨k, names, hsplit, hnames, _⟩ := hparts.shape
  have hpne : parts ≠ [] := by
    rintro rfl
    exact hdot heq
  rw [heq, render_names hpne] at hdd hpre
  -- a leading parent reference would make the path `".."` or start it with `"../"`
  have hk : k = 0 := by
    rcases k with _ | k
    · rfl
    · exfalso
      rw [hsplit, List.replicate_succ, List.cons_append] at hdd hpre
      cases hrest : List.replicate k dotdot ++ names with
      | nil =>
          rw [hrest] at hdd
          exact hdd rfl
      | cons c rest =>
          rw [hrest] at hpre
          simp [joinSlash, List.intercalate_cons_cons, dotdot] at hpre
  subst hk
  rw [List.replicate_zero, List.nil_append] at hsplit
  subst hsplit
  exact ⟨parts, hpne, hnames, by rw [heq, render_names hpne]⟩

theorem isLocal_joinSlash (names : List Bytes) (hne : names ≠ []) (hnames : ∀ c ∈ names, Name c) :
    isLocal (joinSlash names) = true := by
  have hparts : CleanParts false names := cleanParts_of_names hnames
  have hclean : clean (joinSlash names) = joinSlash names := by
    rw [← render_names hne, clean_render hparts]
  have hnil : joinSlash names ≠ [] := by
    rw [← render_names hne]
    exact render_ne_nil hparts
  obtain ⟨c, rest, rfl⟩ := List.exists_cons_of_ne_nil hne
  have hc := hnames c List.mem_cons_self
  have hsplit := split_joinSlash (fun c hc => (hnames c hc).no_slash) hne
  have hdd : joinSlash (c :: rest) ≠ dotdot := by
    intro h
    rw [h] at hsplit
    have : split dotdot = [dotdot] := by decide
    rw [this] at hsplit
    injection hsplit with h1 _
    exact hc.ne_dotdot h1.symm
  have hpre : ¬ (dotdot ++ [slash]) <+: joinSlash (c :: rest) := by
    rintro ⟨t, ht⟩
    rw [← ht, List.append_assoc, List.singleton_append, split_append_slash] at hsplit
    have : split dotdot = [dotdot] := by decide
    rw [this, List.singleton_append] at hsplit
    injection hsplit with h1 _
    exact hc.ne_dotdot h1.symm
  have habs := isAbs_joinSlash (fun c hc => (hnames c hc).no_slash) fun c hc => (hnames c hc).ne_nil
  simp only [isLocal, hclean, ite_self, habs, Bool.not_false, Bool.true_and, Bool.and_eq_true,
    bne_iff_ne, ne_eq, Bool.not_eq_true']
  refine ⟨⟨hnil, hdd⟩, ?_⟩
  rw [← Bool.not_eq_true, List.isPrefixOf_iff_prefix]
  exact hpre

theorem stripCommon_append (front back : List Bytes) :
    stripCommon front (front ++ back) = ([], back) := by
  induction front with
  | nil => cases back <;> rfl
  | cons c front ih => simpa [stripCommon] using ih

theorem render_injective {a b : List Bytes} (ha : CleanParts rooted a) (hb : CleanParts rooted b)
    (h : render rooted a = render rooted b) : a = b := by
  have h1 := foldl_cleanStep_split_render ha
  rw [h, foldl_cleanStep_split_render hb] at h1
  exact (List.reverse_injective h1).symm

/-- `Rel` undoes `Join` for names below a cleaned path. -/
theorem rel_render (h : CleanParts rooted parts) (hnames : ∀ c ∈ names, Name c) (hne : names ≠ []) :
    rel (render rooted parts) (render rooted (parts ++ names)) = some (joinSlash names) := by
  have hall := h.append hnames
  have hdiff : render rooted (parts ++ names) ≠ render rooted parts := by
    intro he
    have := render_injective hall h he
    exact hne (List.append_right_eq_self.mp this)
  have hpne : parts ++ names ≠ [] := by simp [hne]
  have hstrip : stripCommon
      (if render rooted parts = dot then [] else relElements (render rooted parts))
      (relElements (render rooted (parts ++ names))) = ([], names) := by
    cases rooted with
    | true =>
        have hsplit : ∀ qs : List Bytes, split (render true qs) = [] :: split (joinSlash qs) := by
          intro qs
          have := split_append_slash [] (joinSlash qs)
          simpa [render, split] using this
        have hnd : ∀ qs : List Bytes, render true qs ≠ dot := by
          intro qs
          simp [render, dot, slash]
        have hbig : render true (parts ++ names) ≠ [slash] := by
          have := (joinSlash_eq_nil_iff hall.ne_nil).not.mpr hpne
          simpa [render] using this
        rw [if_neg (hnd _), relElements, relElements, if_neg hbig, hsplit (parts ++ names),
          split_joinSlash hall.no_slash hpne]
        by_cases hp : parts = []
        · subst hp
          simp [render, joinSlash, stripCommon]
        · have hsmall : render true parts ≠ [slash] := by
            have := (joinSlash_eq_nil_iff h.ne_nil).not.mpr hp
            simpa [render] using this
          rw [if_neg hsmall, hsplit, split_joinSlash h.no_slash hp]
          exact stripCommon_append ([] :: parts) names
    | false =>
        have hns : ∀ qs : List Bytes, CleanParts false qs → render false qs ≠ [slash] := by
          intro qs hqs he
          have := isAbs_render hqs
          rw [he] at this
          exact absurd this (by decide)
        rw [relElements, relElements, if_neg (hns _ h), if_neg (hns _ hall),
          render_names hpne, split_joinSlash hall.no_slash hpne]
        by_cases hp : parts = []
        · subst hp
          rw [if_pos (by rfl)]
          exact stripCommon_append [] names
        · have hnd : render false parts ≠ dot := by
            intro he
            exact hp (render_injective h (cleanParts_of_names (by simp)) he)
          rw [if_neg hnd, render_names hp, split_joinSlash h.no_slash hp]
          exact stripCommon_append parts names
  unfold rel
  simp only [clean_render h, clean_render hall, hdiff, if_false, isAbs_render h,
    isAbs_render hall, ne_eq, not_true_eq_false, hstrip]

variable {last : Bytes}

theorem dropWhile_ne_slash_append (h : slash ∉ last) (rest : Bytes) :
    (last ++ rest).dropWhile (· != slash) = rest.dropWhile (· != slash) := by
  induction last with
  | nil => rfl
  | cons x last ih =>
      simp only [List.mem_cons, not_or] at h
      have hx : (x != slash) = true := by
        simp only [bne_iff_ne, ne_eq]
        exact fun he => h.1 he.symm
      simp only [List.cons_append, List.dropWhile_cons, hx, if_true]
      exact ih h.2

theorem takeWhile_ne_slash_append (h : slash ∉ last) (rest : Bytes) :
    (last ++ rest).takeWhile (· != slash) = last ++ rest.takeWhile (· != slash) := by
  induction last with
  | nil => rfl
  | cons x last ih =>
      simp only [List.mem_cons, not_or] at h
      have hx : (x != slash) = true := by
        simp only [bne_iff_ne, ne_eq]
        exact fun he => h.1 he.symm
      simp only [List.cons_append, List.takeWhile_cons, hx, if_true, ih h.2]

/-! ## The last name of a path -/

/-- What stands before the last name: nothing, or something with a separator at its end. -/
def Ends (front : Bytes) : Prop := front = [] ∨ ∃ p, front = p ++ [slash]

theorem Ends.slash_reverse {front : Bytes} (h : Ends front) :
    front.reverse = [] ∨ ∃ rest, front.reverse = slash :: rest := by
  rcases h with rfl | ⟨p, rfl⟩
  · exact .inl rfl
  · exact .inr ⟨p.reverse, by rw [List.reverse_append]; rfl⟩

variable {name : Bytes}

theorem dir_append {front : Bytes} (h : Ends front) (hname : slash ∉ name) :
    dir (front ++ name) = clean front := by
  have hrev : slash ∉ name.reverse := by simpa using hname
  have hstop : front.reverse.dropWhile (· != slash) = front.reverse := by
    rcases h.slash_reverse with heq | ⟨rest, heq⟩
    · rw [heq]
      rfl
    · rw [heq]
      exact List.dropWhile_cons_of_neg (by simp)
  rw [dir, List.reverse_append, dropWhile_ne_slash_append hrev, hstop, List.reverse_reverse]

theorem base_append {front : Bytes} (h : Ends front) (hname : slash ∉ name) (hne : name ≠ []) :
    base (front ++ name) = name := by
  have hrev : slash ∉ name.reverse := by simpa using hname
  have hstop : front.reverse.takeWhile (· != slash) = [] := by
    rcases h.slash_reverse with heq | ⟨rest, heq⟩
    · rw [heq]
      rfl
    · rw [heq]
      exact List.takeWhile_cons_of_neg (by simp)
  -- there is no separator at the end to be removed
  have hdrop : (name.reverse ++ front.reverse).dropWhile (· == slash) =
      name.reverse ++ front.reverse := by
    obtain ⟨x, xs, hx⟩ := List.exists_cons_of_ne_nil
      (fun h => hne (List.reverse_eq_nil_iff.mp h) : name.reverse ≠ [])
    have hxs : x ≠ slash := fun he => hrev (hx ▸ he ▸ List.mem_cons_self)
    rw [hx, List.cons_append]
    exact List.dropWhile_cons_of_neg (by simpa using hxs)
  have hlast : (((front ++ name).reverse.dropWhile (· == slash)).takeWhile
      (· != slash)).reverse = name := by
    rw [List.reverse_append, hdrop, takeWhile_ne_slash_append hrev, hstop, List.append_nil,
      List.reverse_reverse]
  have hall : front ++ name ≠ [] := fun h => hne (List.append_eq_nil_iff.mp h).2
  simp only [base, hall, if_false, hlast, hne]

/-- A separator at the end of a path changes nothing. -/
theorem clean_append_slash (h : p ≠ []) : clean (p ++ [slash]) = clean p := by
  obtain ⟨x, xs, rfl⟩ := List.exists_cons_of_ne_nil h
  have habs : isAbs (x :: xs ++ [slash]) = isAbs (x :: xs) := rfl
  have hskip : ∀ kept, cleanStep (isAbs (x :: xs)) kept [] = kept := fun _ => if_pos (.inl rfl)
  unfold clean cleanParts
  rw [habs, split_append_slash, List.foldl_append]
  exact congrArg (fun kept => render (isAbs (x :: xs)) kept.reverse) (hskip _)

/-- What comes before a name that is joined to a cleaned path. -/
theorem render_append_name (h : CleanParts rooted parts) :
    ∃ front, Ends front ∧ clean front = render rooted parts ∧
      ∀ name, render rooted (parts ++ [name]) = front ++ name := by
  have hone : ∀ name, joinSlash [name] = name := fun name => List.intercalate_singleton
  by_cases hp : parts = []
  · subst hp
    cases rooted with
    | true =>
        refine ⟨[slash], .inr ⟨[], rfl⟩, by decide, fun name => ?_⟩
        exact congrArg (slash :: ·) (hone name)
    | false =>
        refine ⟨[], .inl rfl, by decide, fun name => ?_⟩
        rw [List.nil_append, List.nil_append, render_names (List.cons_ne_nil _ _), hone]
  · refine ⟨render rooted parts ++ [slash], .inr ⟨_, rfl⟩, ?_, fun name => ?_⟩
    · rw [clean_append_slash (render_ne_nil h), clean_render h]
    · have hjoin : joinSlash (parts ++ [name]) = joinSlash parts ++ slash :: name := by
        rw [joinSlash_append hp (List.cons_ne_nil _ _), hone]
      have hne : parts ++ [name] ≠ [] := List.append_ne_nil_of_left_ne_nil hp _
      cases rooted with
      | true =>
          rw [render, render, if_pos rfl, if_pos rfl, hjoin, List.append_assoc]
          rfl
      | false =>
          rw [render_names hne, render_names hp, hjoin, List.append_assoc]
          rfl

/-- `Dir` of names is the names but the last one. -/
theorem dir_joinSlash (hfront : ∀ c ∈ front, Name c) (hlast : Name last) :
    dir (joinSlash (front ++ [last])) = render false front := by
  have hparts : CleanParts false front := cleanParts_of_names hfront
  obtain ⟨before, hends, hclean, heq⟩ := render_append_name hparts
  rw [← render_names (List.append_ne_nil_of_right_ne_nil _ (List.cons_ne_nil _ _)), heq,
    dir_append hends hlast.no_slash, hclean]

/-- `Base` of names is the last one. -/
theorem base_joinSlash (hlast : Name last) :
    base (joinSlash (front ++ [last])) = last := by
  have hone : joinSlash [last] = last := List.intercalate_singleton
  by_cases hf : front = []
  · subst hf
    rw [List.nil_append, hone]
    exact base_append (.inl rfl) hlast.no_slash hlast.ne_nil
  · rw [joinSlash_append hf (List.cons_ne_nil _ _), hone, ← List.singleton_append,
      ← List.append_assoc]
    exact base_append (.inr ⟨_, rfl⟩) hlast.no_slash hlast.ne_nil

/-- A name joined to a path goes behind the cleaned path. -/
theorem join_name (p : Bytes) :
    ∃ front, Ends front ∧ clean front = clean p ∧ ∀ name, Name name → join p name =
      front ++ name := by
  obtain ⟨front, hends, hclean, happend⟩ := render_append_name (cleanParts_normal p)
  refine ⟨front, hends, hclean, fun name hname => ?_⟩
  have hsplit : split name = [name] := by
    have h := split_joinSlash (fun c hc => List.mem_singleton.mp hc ▸ hname.no_slash)
      (List.cons_ne_nil name [])
    rwa [joinSlash, List.intercalate_singleton] at h
  have hnames : ∀ c ∈ [name], Name c := fun c hc => List.mem_singleton.mp hc ▸ hname
  have hone : render false [name] = name := by
    rw [render_names (List.cons_ne_nil _ _), joinSlash, List.intercalate_singleton]
  rw [← happend]
  by_cases hp : p = []
  · subst hp
    have hclean := clean_render (cleanParts_of_names hnames : CleanParts false [name])
    rw [hone] at hclean
    rw [join, if_neg (not_not.mpr rfl), if_pos hname.ne_nil, hclean]
    have hnone : cleanParts (isAbs []) (split []) = [] := by decide
    rw [hnone]
    exact hone.symm
  · have habs : isAbs (p ++ slash :: name) = isAbs p := by
      obtain ⟨x, xs, rfl⟩ := List.exists_cons_of_ne_nil hp
      rfl
    rw [join, if_pos hp, clean, habs, cleanParts, cleanParts, split_append_slash, hsplit,
      List.foldl_append, foldl_cleanStep_names hnames, List.reverse_append]
    rfl

/-- A name joined to a path is a child of the directory. -/
theorem join_child (p : Bytes) (h : Name name) :
    dir (join p name) = clean p ∧ base (join p name) = name := by
  obtain ⟨front, hends, hclean, hjoin⟩ := join_name p
  rw [hjoin name h, dir_append hends h.no_slash, hclean]
  exact ⟨rfl, base_append hends h.no_slash h.ne_nil⟩

end BuilderShim.Filepath
