/-
  Posix/Snapshot.lean --- every directory can be listed, in one way.

  The nodes of a file system are finitely many, so what is at and below a location
  is the contents of a tree, and there is only one such tree.  With that, every
  call but the wait for a lock is answered in every state.
-/
import Mathlib.Data.Set.Finite.Basic
import Mathlib.Data.Set.Finite.Lattice
import Mathlib.Order.Bounds.Basic
import BuilderShim.Posix.Answered

set_option autoImplicit false

namespace BuilderShim.Posix

open BuilderShim.Filepath
open BuilderShim.Foundation

/-! ## Sorted lists -/

/-- A finite set of names as a list in byte order. -/
theorem exists_sorted {s : Set Bytes} (hs : s.Finite) :
    ∃ l : List Bytes, l.Pairwise (· < ·) ∧ ∀ c, c ∈ l ↔ c ∈ s := by
  induction s, hs using Set.Finite.induction_on with
  | empty => exact ⟨[], List.Pairwise.nil, fun c => by simp⟩
  | @insert a s _ _ ih =>
      obtain ⟨l, hsorted, hmem⟩ := ih
      refine ⟨l.filter (· < a) ++ a :: l.filter (a < ·), ?_, fun c => ?_⟩
      · refine List.pairwise_append.mpr ⟨hsorted.filter _, ?_, ?_⟩
        · refine List.pairwise_cons.mpr ⟨fun b hb => ?_, hsorted.filter _⟩
          exact of_decide_eq_true (List.mem_filter.mp hb).2
        · intro b hb b' hb'
          have hlt : b < a := of_decide_eq_true (List.mem_filter.mp hb).2
          rcases List.mem_cons.mp hb' with rfl | hb'
          · exact hlt
          · exact List.lt_trans hlt (of_decide_eq_true (List.mem_filter.mp hb').2)
      · rw [Set.mem_insert_iff, ← hmem c]
        simp only [List.mem_append, List.mem_cons, List.mem_filter, decide_eq_true_eq]
        rcases Std.lt_trichotomy c a with h | h | h <;> tauto

namespace Tree

/-! ## One tree -/

theorem getIn_eq_none {children : List (Bytes × Tree)} {c : Bytes}
    (h : ∀ child ∈ children, child.1 ≠ c) (rest : Loc) : getIn children c rest = none := by
  induction children with
  | nil => rfl
  | cons child children ih =>
      obtain ⟨hne, hrest⟩ := List.forall_mem_cons.mp h
      rw [getIn, if_neg hne, ih hrest]

theorem getIn_eq_get {children : List (Bytes × Tree)} (hwf : WFIn children) {child : Bytes × Tree}
    (h : child ∈ children) (rest : Loc) : getIn children child.1 rest = child.2.get rest := by
  induction children with
  | nil => cases h
  | cons first children ih =>
      obtain ⟨name, t⟩ := first
      obtain ⟨_, hless, _, hchildren⟩ := hwf
      rcases List.mem_cons.mp h with rfl | h
      · rw [getIn, if_pos rfl]
      · have hne : name ≠ child.1 := fun heq => List.lt_irrefl _ (heq ▸ hless child h)
        rw [getIn, if_neg hne, ih hchildren h]

mutual

/-- Two trees that show the same are the same. -/
theorem eq_of_get (t t' : Tree) (ht : t.WF) (ht' : t'.WF) (h : ∀ rel, t.get rel = t'.get rel) :
    t = t' := by
  have htop : t.content = t'.content := by
    have := h []
    rw [get_nil, get_nil] at this
    exact Option.some.inj this
  cases t with
  | file perm data | symlink target =>
      cases t' <;> cases htop
      rfl
  | dir perm children =>
      cases t' with
      | file perm data | symlink target => cases htop
      | dir perm' children' =>
          cases htop
          rw [eq_of_getIn children children' ht ht' fun c rest => h (c :: rest)]

theorem eq_of_getIn (children children' : List (Bytes × Tree)) (hwf : WFIn children)
    (hwf' : WFIn children') (h : ∀ c rest, getIn children c rest = getIn children' c rest) :
    children = children' := by
  cases children with
  | nil =>
      cases children' with
      | nil => rfl
      | cons first children' =>
          have := h first.1 []
          rw [getIn_eq_get hwf' List.mem_cons_self, get_nil] at this
          cases this
  | cons first children =>
      obtain ⟨name, t⟩ := first
      cases children' with
      | nil =>
          have := h name []
          rw [getIn_eq_get hwf (List.mem_cons_self (a := (name, t))), get_nil] at this
          cases this
      | cons first' children' =>
          obtain ⟨name', t'⟩ := first'
          have hhead := h name []
          have hhead' := h name' []
          obtain ⟨_, hless, ht, hchildren⟩ := hwf
          obtain ⟨_, hless', ht', hchildren'⟩ := hwf'
          rw [getIn, if_pos rfl, get_nil] at hhead
          rcases Std.lt_trichotomy name name' with hlt | rfl | hgt
          · -- the smaller name is in one of the lists only
            rw [getIn_eq_none] at hhead
            · cases hhead
            · refine List.forall_mem_cons.mpr ⟨fun heq => List.lt_irrefl _ (heq ▸ hlt), ?_⟩
              intro child hchild heq
              exact List.lt_irrefl _ (List.lt_trans (heq ▸ hlt) (hless' child hchild))
          · have hsame : t = t' := by
              refine eq_of_get t t' ht ht' fun rest => ?_
              have := h name rest
              rwa [getIn, getIn, if_pos rfl, if_pos rfl] at this
            have hrest : children = children' := by
              refine eq_of_getIn children children' hchildren hchildren' fun c rest => ?_
              by_cases heq : name = c
              · rw [getIn_eq_none, getIn_eq_none]
                · exact fun child hchild hc =>
                    List.lt_irrefl _ ((heq.trans hc.symm) ▸ hless' child hchild)
                · exact fun child hchild hc =>
                    List.lt_irrefl _ ((heq.trans hc.symm) ▸ hless child hchild)
              · have := h c rest
                rwa [getIn, getIn, if_neg heq, if_neg heq] at this
            rw [hsame, hrest]
          · rw [getIn, getIn, if_neg (fun heq => List.lt_irrefl _ (heq ▸ hgt)), if_pos rfl, get_nil,
              getIn_eq_none] at hhead'
            · cases hhead'
            · intro child hchild heq
              exact List.lt_irrefl _ (List.lt_trans (heq ▸ hgt) (hless child hchild))

end

end Tree

namespace FS

variable (fs : FS)

theorem view_append (p rel rest : Loc) : fs.view p (rel ++ rest) = fs.view (p ++ rel) rest := by
  unfold view
  rw [List.append_assoc]

/-- No location is deeper than some bound. -/
theorem exists_depth : ∃ depth, ∀ p, fs.node p ≠ none → p.length ≤ depth := by
  obtain ⟨depth, hdepth⟩ := (fs.finite.image List.length).bddAbove
  exact ⟨depth, fun p hp => hdepth ⟨p, hp, rfl⟩⟩

theorem finite_entries (p : Loc) : {c | fs.node (p ++ [c]) ≠ none}.Finite :=
  fs.finite.preimage fun _ _ _ _ h => (List.cons.inj (List.append_cancel_left h)).1

variable {p : Loc}

/-- Trees for the entries of a directory, in order. -/
theorem exists_children {names : List Bytes} (h : ∀ c ∈ names, ∃ t, fs.Shows (p ++ [c]) t) :
    ∃ children : List (Bytes × Tree), children.map Prod.fst = names ∧
      ∀ child ∈ children, fs.Shows (p ++ [child.1]) child.2 := by
  induction names with
  | nil => exact ⟨[], rfl, List.forall_mem_nil _⟩
  | cons c names ih =>
      obtain ⟨⟨t, ht⟩, hnames⟩ := List.forall_mem_cons.mp h
      obtain ⟨children, hmap, hshows⟩ := ih hnames
      refine ⟨(c, t) :: children, ?_, List.forall_mem_cons.mpr ⟨ht, hshows⟩⟩
      rw [List.map_cons, hmap]

theorem shows_leaf {n : Node} (hn : fs.node p = some n) (hdir : n.isDir = false) {t : Tree}
    (hwf : t.WF) (htop : t.content = fs.content n) (hleaf : ∀ c rest, t.get (c :: rest) = none) :
    fs.Shows p t where
  wf := hwf
  get rel := by
    cases rel with
    | nil =>
        rw [Tree.get_nil, htop, view, List.append_nil, hn]
        rfl
    | cons c rest =>
        have hnot : fs.isDir p = false := by
          unfold isDir
          rw [hn]
          exact hdir
        rw [hleaf, view, node_below_eq_none hnot (List.cons_ne_nil c rest)]
        rfl

/-- A directory shows what its entries show. -/
theorem shows_dir {perm : Nat} {n : Node} {children : List (Bytes × Tree)}
    (hn : fs.node p = some n) (hkind : n.kind = .dir perm)
    (hsorted : (children.map Prod.fst).Pairwise (· < ·))
    (hmem : ∀ c, c ∈ children.map Prod.fst ↔ fs.node (p ++ [c]) ≠ none)
    (hshows : ∀ child ∈ children, fs.Shows (p ++ [child.1]) child.2) :
    fs.Shows p (.dir perm children) := by
  have hwf : Tree.WFIn children := by
    refine Tree.wfIn_iff.mpr ⟨List.pairwise_map.mp hsorted, fun child hchild => ?_⟩
    have hnode := (hmem child.1).mp (List.mem_map_of_mem hchild)
    exact ⟨fs.names _ hnode child.1 (by simp), (hshows child hchild).wf⟩
  refine ⟨hwf, fun rel => ?_⟩
  cases rel with
  | nil =>
      rw [Tree.get_nil, view, List.append_nil, hn, Option.map_some, content, hkind]
      rfl
  | cons c rest =>
      rw [Tree.get]
      by_cases hc : c ∈ children.map Prod.fst
      · obtain ⟨child, hchild, rfl⟩ := List.mem_map.mp hc
        rw [Tree.getIn_eq_get hwf hchild, (hshows child hchild).get]
        exact (fs.view_append p [child.1] rest).symm
      · have hother : ∀ child ∈ children, child.1 ≠ c := by
          rintro child hchild rfl
          exact hc (List.mem_map_of_mem hchild)
        rw [Tree.getIn_eq_none hother]
        have hnone : fs.node (p ++ [c]) = none := by
          by_contra hne
          exact hc ((hmem c).mpr hne)
        have hnot : fs.isDir (p ++ [c]) = false := by
          unfold isDir
          rw [hnone]
          rfl
        cases rest with
        | nil => rw [view, hnone]; rfl
        | cons c' rest =>
            have hbelow := node_below_eq_none hnot (List.cons_ne_nil c' rest)
            rw [List.append_assoc] at hbelow
            rw [view, show c :: c' :: rest = [c] ++ c' :: rest from rfl, hbelow]
            rfl

/-- What exists is the top of a tree. -/
theorem exists_shows (hp : fs.node p ≠ none) : ∃ t, fs.Shows p t := by
  obtain ⟨depth, hdepth⟩ := fs.exists_depth
  suffices h : ∀ k p, depth < p.length + k → fs.node p ≠ none → ∃ t, fs.Shows p t from
    h (depth + 1) p (by omega) hp
  intro k
  induction k with
  | zero =>
      intro p hk hp
      have := hdepth p hp
      omega
  | succ k ih =>
      intro p hk hp
      obtain ⟨n, hn⟩ := Option.ne_none_iff_exists'.mp hp
      cases hkind : n.kind with
      | file ino =>
          refine ⟨.file (fs.inode ino).perm (fs.inode ino).data, fs.shows_leaf hn ?_ trivial ?_ ?_⟩
          · rw [Node.isDir, hkind]
          · rw [content, hkind]
            rfl
          · exact fun _ _ => rfl
      | symlink target =>
          refine ⟨.symlink target, fs.shows_leaf hn ?_ trivial ?_ ?_⟩
          · rw [Node.isDir, hkind]
          · rw [content, hkind]
            rfl
          · exact fun _ _ => rfl
      | dir perm =>
          obtain ⟨names, hsorted, hmem⟩ := exists_sorted (fs.finite_entries p)
          have hentries : ∀ c ∈ names, ∃ t, fs.Shows (p ++ [c]) t := by
            intro c hc
            refine ih (p ++ [c]) ?_ ((hmem c).mp hc)
            rw [List.length_append, List.length_singleton]
            omega
          obtain ⟨children, rfl, hshows⟩ := fs.exists_children hentries
          exact ⟨.dir perm children, fs.shows_dir hn hkind hsorted hmem hshows⟩

end FS

/-- A finite set of locations as a list in which nothing comes before what is below it. -/
theorem exists_upward {s : Set Loc} (hs : s.Finite) :
    ∃ plan : List Loc, (∀ rel, rel ∈ plan ↔ rel ∈ s) ∧ plan.Pairwise fun a b => ¬ a <+: b := by
  induction s, hs using Set.Finite.induction_on with
  | empty => exact ⟨[], fun rel => by simp, List.Pairwise.nil⟩
  | @insert a s ha _ ih =>
      obtain ⟨plan, hmem, horder⟩ := ih
      refine ⟨plan.filter (fun b => ¬ b <+: a) ++ a :: plan.filter (fun b => b <+: a),
        fun rel => ?_, ?_⟩
      · rw [Set.mem_insert_iff, ← hmem rel]
        simp only [List.mem_append, List.mem_cons, List.mem_filter, decide_eq_true_eq]
        tauto
      · refine List.pairwise_append.mpr ⟨horder.filter _, ?_, ?_⟩
        · refine List.pairwise_cons.mpr ⟨fun b hb hle => ?_, horder.filter _⟩
          obtain ⟨hplan, hge⟩ := List.mem_filter.mp hb
          have heq : a = b := hle.eq_of_length_le (of_decide_eq_true hge).length_le
          exact ha ((hmem a).mp (heq ▸ hplan))
        · intro b hb b' hb' hle
          have hnot : ¬ b <+: a := of_decide_eq_true (List.mem_filter.mp hb).2
          rcases List.mem_cons.mp hb' with rfl | hb'
          · exact hnot hle
          · exact hnot (hle.trans (of_decide_eq_true (List.mem_filter.mp hb').2))

/-! ## Temporary names -/

theorem toUInt8_add_injOn {a b : Nat} (ha : a < 10) (hb : b < 10)
    (h : (48 + a).toUInt8 = (48 + b).toUInt8) : a = b := by
  have := congrArg UInt8.toNat h
  simp only [Nat.toUInt8, UInt8.toNat_ofNat'] at this
  omega

theorem map_injOn {l l' : List Nat} (hl : ∀ k ∈ l, k < 10) (hl' : ∀ k ∈ l', k < 10)
    (h : (l.map fun k => (48 + k).toUInt8) = l'.map fun k => (48 + k).toUInt8) : l = l' := by
  induction l generalizing l' with
  | nil =>
      cases l' with
      | nil => rfl
      | cons b l' => cases h
  | cons a l ih =>
      cases l' with
      | nil => cases h
      | cons b l' =>
          obtain ⟨ha, hl⟩ := List.forall_mem_cons.mp hl
          obtain ⟨hb, hl'⟩ := List.forall_mem_cons.mp hl'
          rw [List.map_cons, List.map_cons] at h
          obtain ⟨hab, hrest⟩ := List.cons.inj h
          rw [toUInt8_add_injOn ha hb hab, ih hl hl' hrest]

/-- Different numbers are written differently. -/
theorem digits_injective : Function.Injective digits := by
  have hlt : ∀ n, ∀ k ∈ (Nat.digits 10 n).reverse, k < 10 := fun n k hk =>
    Nat.digits_lt_base (by decide) (List.mem_reverse.mp hk)
  have hzero : ∀ n, n ≠ 0 → digits 0 ≠ digits n := by
    intro n hn h
    have hmap : ([0].map fun k => (48 + k).toUInt8) =
        (Nat.digits 10 n).reverse.map fun k => (48 + k).toUInt8 := by
      unfold digits at h
      rw [if_pos rfl, if_neg hn] at h
      exact h
    have hdigits := map_injOn (by simp) (hlt n) hmap
    have hone : Nat.digits 10 n = [0] := by
      rw [← List.reverse_reverse (Nat.digits 10 n), ← hdigits]
      rfl
    have hval := Nat.ofDigits_digits 10 n
    rw [hone] at hval
    exact hn hval.symm
  intro n m h
  by_cases hn : n = 0
  · by_contra hne
    subst hn
    exact hzero m (Ne.symm hne) h
  · by_cases hm : m = 0
    · subst hm
      exact absurd h.symm (hzero n hn)
    · unfold digits at h
      rw [if_neg hn, if_neg hm] at h
      exact Nat.digits.injective 10 (List.reverse_injective (map_injOn (hlt n) (hlt m) h))

/-- A temporary path is that of a directory, a separator and a name. -/
theorem tempPath_eq (dir : Bytes) : ∃ base, ∀ name, tempPath dir name = base ++ slash :: name := by
  unfold tempPath
  by_cases h : dir.getLast? = some slash
  · obtain ⟨base, rfl⟩ := List.getLast?_eq_some_iff.mp h
    refine ⟨base, fun name => ?_⟩
    rw [if_pos h, List.append_assoc]
    rfl
  · exact ⟨dir, fun name => if_neg h⟩

/-- Names in one directory are located together. -/
theorem locate_temp (fs : FS) (dir : Bytes) :
    (∃ e, ∀ name, Name name → fs.locate (tempPath dir name) = .error e) ∨
      ∃ d, ∀ name, Name name → fs.locate (tempPath dir name) = .ok (d ++ [name]) := by
  obtain ⟨base, hbase⟩ := tempPath_eq dir
  have hstart : ∀ name, fs.start (base ++ slash :: name) = fs.start (base ++ [slash]) := by
    intro name
    unfold FS.start isAbs
    cases base <;> rfl
  have hsplit : ∀ name, Name name → split (base ++ slash :: name) = split base ++ [name] := by
    intro name hname
    have hone := split_joinSlash (List.forall_mem_singleton.mpr hname.no_slash)
      (List.cons_ne_nil name [])
    rw [split_append_slash]
    simpa [joinSlash] using hone
  cases hwalk : fs.walk FS.maxSymlinks (fs.start (base ++ [slash])) (split base) with
  | error e =>
      refine .inl ⟨e, fun name hname => ?_⟩
      unfold FS.locate FS.locateFrom
      rw [hbase, hstart, hsplit name hname, List.getLast?_concat, List.dropLast_concat, hwalk]
      exact if_pos hname
  | ok d =>
      have hlocate : ∀ name, Name name → fs.locate (tempPath dir name) =
          if fs.isDir d then .ok (d ++ [name]) else .error .notdir := by
        intro name hname
        unfold FS.locate FS.locateFrom
        rw [hbase, hstart, hsplit name hname, List.getLast?_concat, List.dropLast_concat, hwalk]
        exact if_pos hname
      by_cases hdir : fs.isDir d = true
      · refine .inr ⟨d, fun name hname => ?_⟩
        rw [hlocate name hname, if_pos hdir]
      · refine .inl ⟨.notdir, fun name hname => ?_⟩
        rw [hlocate name hname, if_neg hdir]

variable {α : Type} {op : FsOp} {w w' : World}

/-- A name that nothing has yet can be found. -/
theorem createsFresh_answered (w : World) (dir pre suf : Bytes)
    (hnames : ∀ n, Name (pre ++ digits n ++ suf))
    {made : Nat → (p : Loc) → w.fs.Vacant p → Except Errno α → World → Prop}
    (hmade : ∀ n p h, ∃ r w', made n p h r w') :
    ∃ r w' n, CreatesFresh w (w.fs.locate (tempPath dir (pre ++ digits n ++ suf))) r w'
      (made n) := by
  rcases locate_temp w.fs dir with ⟨e, he⟩ | ⟨d, hd⟩
  · refine ⟨.error e, w, 0, ?_⟩
    rw [he _ (hnames 0)]
    exact ⟨rfl, rfl⟩
  · have hinj : Function.Injective fun n => d ++ [pre ++ digits n ++ suf] := by
      intro n m h
      have hname := (List.cons.inj (List.append_cancel_left h)).1
      exact digits_injective (List.append_cancel_left (List.append_cancel_right hname))
    obtain ⟨p, ⟨n, rfl⟩, hfree⟩ :=
      (Set.infinite_range_of_injective hinj).exists_notMem_finite w.fs.finite
    have hloc := hd _ (hnames n)
    have hv := FS.locate_vacant hloc (not_not.mp hfree)
    obtain ⟨r, w', hm⟩ := hmade n _ hv
    refine ⟨r, w', n, ?_⟩
    rw [hloc]
    exact ⟨hv, hm⟩

/-! ## Every call but one -/

/-- Everything but the wait for a lock; a temporary has a proper name. -/
def FsOp.Unblocked : FsOp → Prop
  | .tryLock _ _ => False
  | .createTemp _ pre suf | .mkdirTemp _ pre suf => ∀ n, Name (pre ++ digits n ++ suf)
  | _ => True

theorem FsOp.Answered.unblocked (h : op.Answered) : op.Unblocked := by
  cases op <;> trivial

theorem openTrunc_answered (tid : Nat) (path : Bytes) (perm : Nat) (w : World) :
    ∃ r w', Nominal tid (.openTrunc path perm) w r w' := by
  simp only [Nominal]
  cases hp : w.fs.openTarget path with
  | error e => exact ⟨_, w, rfl, rfl⟩
  | ok p =>
      cases hn : w.fs.node p with
      | none =>
          simp only [hn]
          exact ⟨_, _, FS.followLast_vacant hp hn, rfl, rfl⟩
      | some n =>
          obtain ⟨kind, owner⟩ := n
          simp only [hn]
          cases kind <;> exact ⟨_, _, rfl, rfl⟩

theorem renameDir_answered (tid : Nat) (old new : Bytes) (w : World) :
    ∃ r w', Nominal tid (.renameDir old new) w r w' := by
  simp only [Nominal]
  cases hp : w.fs.locate old with
  | error e => exact ⟨_, w, rfl, rfl⟩
  | ok p =>
      cases hq : w.fs.locate new with
      | error e => exact ⟨_, w, rfl, rfl⟩
      | ok q =>
          cases hdir : w.fs.isDir p with
          | false => exact ⟨_, w, .inl ⟨hdir, rfl, rfl⟩⟩
          | true =>
              by_cases hmv : w.fs.Movable p q
              · exact ⟨_, _, .inr (.inr ⟨hmv, rfl, rfl⟩)⟩
              · exact ⟨_, w, .inr (.inl ⟨hdir, hmv, rfl, rfl⟩)⟩

/-- Nothing but the wait for a lock blocks. -/
theorem exec_unblocked (m : Mode) (tid : Nat) (op : FsOp) (hop : op.Unblocked) (w : World) :
    ∃ r w', exec m tid op w r w' := by
  by_cases hanswered : op.Answered
  · exact exec_answered m tid op hanswered w
  · suffices h : ∃ r w', Nominal tid op w r w' by
      obtain ⟨r, w', h⟩ := h
      exact ⟨r, w', .inl h⟩
    cases op with
    | openTrunc path perm => exact openTrunc_answered tid path perm w
    | openAppend path => exact ⟨_, w, rfl, rfl⟩
    | createTemp dir pre suf => exact createsFresh_answered w dir pre suf hop fun n p h =>
      ⟨_, _, rfl, rfl⟩
    | mkdirTemp dir pre suf => exact createsFresh_answered w dir pre suf hop fun n p h =>
      ⟨_, _, rfl, rfl⟩
    | listTree path =>
        simp only [Nominal]
        cases hp : w.fs.locate path with
        | error e => cases e <;> exact ⟨_, w, rfl, rfl⟩
        | ok p =>
            have hfinite : {rel | w.fs.node (p ++ rel) ≠ none}.Finite :=
              w.fs.finite.preimage fun _ _ _ _ h => List.append_cancel_left h
            obtain ⟨plan, hmem, horder⟩ := exists_upward hfinite
            exact ⟨_, w, rfl, plan, rfl, hmem, horder⟩
    | remove path =>
        simp only [Nominal]
        cases hp : w.fs.locate path with
        | error e => exact ⟨_, w, rfl, rfl⟩
        | ok p =>
            by_cases hn : w.fs.node p = none
            · exact ⟨_, w, .inl ⟨hn, rfl, rfl⟩⟩
            · by_cases hrm : w.fs.Removable p
              · exact ⟨_, _, .inr (.inr ⟨hrm, hn, rfl, rfl⟩)⟩
              · exact ⟨_, w, .inr (.inl ⟨hn, hrm, rfl, rfl⟩)⟩
    | renameDir old new => exact renameDir_answered tid old new w
    | unlock lock => exact ⟨(), _, rfl⟩
    | snapshot path =>
        simp only [Nominal]
        cases hp : w.fs.locate path with
        | error e => exact ⟨_, w, rfl, rfl⟩
        | ok p =>
            by_cases hn : w.fs.node p = none
            · exact ⟨_, w, rfl, .inl ⟨hn, rfl⟩⟩
            · obtain ⟨t, ht⟩ := w.fs.exists_shows hn
              exact ⟨_, w, rfl, .inr ⟨t, rfl, ht⟩⟩
    | tryLock path perm => exact hop.elim
    | _ => exact absurd trivial hanswered

/-- Nobody holds a lock. -/
def World.Unlocked (w : World) : Prop := ∀ p, w.locks p = none

/-- Nobody waits for a lock that is free. -/
theorem exec_tryLock_unlocked (m : Mode) (tid : Nat) (path : Bytes) (perm : Nat) (hw : w.Unlocked) :
    ∃ r w', exec m tid (.tryLock path perm) w r w' := by
  suffices h : ∃ r w', Nominal tid (.tryLock path perm) w r w' by
    obtain ⟨r, w', h⟩ := h
    exact ⟨r, w', .inl h⟩
  simp only [Nominal]
  cases hp : w.fs.openTarget path with
  | error e => exact ⟨.error e, w, rfl, rfl⟩
  | ok p =>
      dsimp only
      split
      · exact ⟨.ok p, _, hw p, rfl, rfl⟩
      · exact ⟨.error .isdir, w, rfl, rfl⟩
      · rename_i hnone
        exact ⟨.ok p, _, FS.followLast_vacant hp hnone, hw p, rfl, rfl⟩

theorem unlocked_of_creates {where_ : Except Errno Loc} {r : Except Errno α}
    {made : (p : Loc) → w.fs.Vacant p → Except Errno α → World → Prop} (hw : w.Unlocked)
    (h : Creates w where_ r w' made) (hmade : ∀ p h, made p h r w' → w'.Unlocked) :
    w'.Unlocked := by
  rcases creates_cases h with ⟨_, _, _, rfl⟩ | ⟨_, _, _, _, rfl⟩ | ⟨p, hv, _, hm⟩
  · exact hw
  · exact hw
  · exact hmade p hv hm

theorem unlocked_of_createsFresh {where_ : Except Errno Loc} {r : Except Errno α}
    {made : (p : Loc) → w.fs.Vacant p → Except Errno α → World → Prop} (hw : w.Unlocked)
    (h : CreatesFresh w where_ r w' made) (hmade : ∀ p h, made p h r w' → w'.Unlocked) :
    w'.Unlocked := by
  unfold CreatesFresh at h
  split at h
  · obtain ⟨_, rfl⟩ := h
    exact hw
  · obtain ⟨hv, hm⟩ := h
    exact hmade _ hv hm

theorem unlocked_after {φ : Prop} {v : World} (h : φ ∧ w' = v) (hv : v.Unlocked) :
    w'.Unlocked := by
  rw [h.2]
  exact hv

theorem unlocked_of_unlock {tid : Nat} {lock : Loc} {r : Unit} (hw : w.Unlocked)
    (h : Nominal tid (.unlock lock) w r w') : w'.Unlocked := by
  have hheld : ¬ w.locks lock = some tid := by
    rw [hw lock]
    exact (Option.some_ne_none tid).symm
  simp only [Nominal, hheld, if_false] at h
  rw [h]
  exact hw

/-- A lock is only taken by `tryLock`. -/
theorem nominal_unlocked {tid : Nat} (hop : op.Unblocked) {r : FsOp.Res op} (hw : w.Unlocked)
    (h : Nominal tid op w r w') : w'.Unlocked := by
  cases op with
  | lstat path | stat path | readFile path | readNext | close fd | ctxErr | openAppend path
  | write fd data => exact unlocked_after h hw
  | listTree path | snapshot path =>
      obtain ⟨rfl, _⟩ := h
      exact hw
  | mkdir path perm | openExcl path perm =>
      simp only [Nominal] at h
      exact unlocked_of_creates hw h fun p hv hm => unlocked_after hm hw
  | openTrunc path perm =>
      simp only [Nominal] at h
      split at h
      · exact unlocked_after h hw
      · split at h
        · exact unlocked_after h hw
        · exact unlocked_after h hw
        · obtain ⟨_, h⟩ := h
          exact unlocked_after h hw
  | symlink target path =>
      simp only [Nominal] at h
      split at h
      · exact unlocked_after h hw
      · exact unlocked_of_creates hw h fun p hv hm => unlocked_after hm hw
  | link old new =>
      simp only [Nominal] at h
      split at h
      · exact unlocked_after h hw
      · split at h
        · exact unlocked_after h hw
        · split at h
          · exact unlocked_after h hw
          · exact unlocked_of_creates hw h fun p hv hm => unlocked_after hm hw
  | createTemp dir pre suf | mkdirTemp dir pre suf =>
      obtain ⟨n, h⟩ := h
      exact unlocked_of_createsFresh hw h fun p hv hm => unlocked_after hm hw
  | remove path =>
      simp only [Nominal] at h
      split at h
      · exact unlocked_after h hw
      · rcases h with ⟨_, _, rfl⟩ | ⟨_, _, _, rfl⟩ | ⟨_, _, _, rfl⟩ <;> exact hw
  | renameDir old new =>
      simp only [Nominal] at h
      split at h
      · rcases h with ⟨_, _, rfl⟩ | ⟨_, _, _, rfl⟩ | ⟨_, _, rfl⟩ <;> exact hw
      · exact unlocked_after h hw
      · exact unlocked_after h hw
  | unlock lock => exact unlocked_of_unlock hw h
  | tryLock path perm => exact hop.elim

theorem exec_calm {tid : Nat} {r : FsOp.Res op} (h : exec .calm tid op w r w') :
    Nominal tid op w r w' := by
  rcases h with h | ⟨hf, _⟩ | ⟨hc, _⟩
  · exact h
  · exact hf.elim
  · exact hc.elim

end BuilderShim.Posix
