/-
  GoLib/RemoveAll.lean --- `os.RemoveAll` on a tree that nobody else touches.

  The tree is given by a name in a directory.  What may be assumed of it is
  `Clearable`; the result is that the steps are the ones allowed, that after a
  success nothing is left, and that only a failing machine makes it fail.
-/
import BuilderShim.GoLib.OsSpec
import BuilderShim.Posix.Region

set_option autoImplicit false

namespace BuilderShim.Os

open BuilderShim.Filepath
open BuilderShim.Foundation
open BuilderShim.Posix

theorem below_path (s : Site) (t : Bytes) (rel : Loc) :
    below (s.path [t]) rel = s.path (t :: rel) := by
  unfold below
  split
  · rename_i hrel
    rw [hrel]
  · rename_i hrel
    have hform : s.parts ++ t :: rel = (s.parts ++ [t]) ++ rel := by simp
    unfold Site.path
    rw [hform]
    unfold render
    rw [joinSlash_append (by simp) hrel]
    cases s.rooted <;> simp

/-- The tree called `t` may be taken down: under `Own` the directory it is in is
there, the others leave the tree alone, and removing a leaf of it is allowed.  Once
its top is gone `Done` holds, and the name is anybody's. -/
structure Clearable (s : Site) (t : Bytes) (R G : World → World → Prop)
    (Own Done : World → Prop) : Prop where
  name : Name t
  refl : ∀ w, G w w
  leads : ∀ w, Own w → w.fs.At s.rooted s.parts s.loc
  quiet : ∀ w w', Own w → R w w' →
    (∀ rel, w'.fs.node (s.loc ++ t :: rel) = w.fs.node (s.loc ++ t :: rel)) ∧ Own w'
  done : Stable R Done
  absent : ∀ w, Own w → w.fs.node (s.loc ++ [t]) = none → Done w
  allow : ∀ w rel (h : w.fs.Removable (s.loc ++ t :: rel)), Own w →
    G w (w.setFs (w.fs.erase _ h)) ∧
      if rel = [] then Done (w.setFs (w.fs.erase _ h)) else Own (w.setFs (w.fs.erase _ h))

/-- The way from the top of the tree to `rel` is a real one, as far as it exists. -/
structure Open (s : Site) (t : Bytes) (rel : Loc) (w : World) : Prop where
  names : ∀ x ∈ rel, Name x
  dirs : ∀ a, a <+: rel → a ≠ rel →
    w.fs.node (s.loc ++ t :: a) = none ∨ w.fs.isDir (s.loc ++ t :: a) = true

/-- Removing this tree may fail. -/
def Stuck (m : Mode) (s : Site) (t : Bytes) : Prop :=
  (∃ rel, m.fails (.remove (s.path (t :: rel)))) ∨ m.fails (.listTree (s.path [t]))

section

variable {s : Site} {t : Bytes} {R G : World → World → Prop} {Own Done : World → Prop}
variable {m : Mode} {tid : Nat} {rel : Loc} {w w' : World}

theorem Open.top (s : Site) (t : Bytes) (w : World) : Open s t [] w where
  names := by simp
  dirs a ha hne := absurd (List.prefix_nil.mp ha) hne

theorem Open.of_nodes (h : Open s t rel w)
    (hnode : ∀ rel, w'.fs.node (s.loc ++ t :: rel) = w.fs.node (s.loc ++ t :: rel) ∨
      w'.fs.node (s.loc ++ t :: rel) = none) : Open s t rel w' where
  names := h.names
  dirs a ha hne := by
    rcases hnode a with hsame | hnone
    · unfold FS.isDir
      rw [hsame]
      exact h.dirs a ha hne
    · exact .inl hnone

/-- What exists in the tree is reached along real directories. -/
theorem Open.of_exists (h : w.fs.node (s.loc ++ t :: rel) ≠ none) : Open s t rel w where
  names x hx := w.fs.names _ h x (by simp [hx])
  dirs a ha hne := by
    obtain ⟨rest, rfl⟩ := ha
    have hrest : rest ≠ [] := fun hr => hne (by simp [hr])
    refine .inr (FS.isDir_of_below (q := rest) ?_ hrest)
    simpa using h

theorem Open.locate (h : Open s t rel w) (hat : w.fs.At s.rooted s.parts s.loc) (ht : Name t) :
    w.fs.locate (s.path (t :: rel)) = .ok (s.loc ++ t :: rel) ∨
      (w.fs.locate (s.path (t :: rel)) = .error .noent ∧
        w.fs.node (s.loc ++ t :: rel) = none) := by
  rcases List.eq_nil_or_concat rel with rfl | ⟨front, c, rfl⟩
  · refine .inl ?_
    have := hat.locate_names [] (c := t) (by simp) ht (by simpa using hat.isDir)
    simpa [Site.path] using this
  rw [List.concat_eq_append] at h ⊢
  obtain ⟨fuel, hm⟩ := hat.locate_below
  have hnames : ∀ x ∈ t :: front, Name x := by
    intro x hx
    rcases List.mem_cons.mp hx with rfl | hx
    · exact ht
    · exact h.names x (List.mem_append_left _ hx)
  have hloc := hm (t :: front) c hnames (h.names c (by simp))
  rw [FS.walk_open hat.isDir hnames ?_] at hloc
  · have hpath : s.path (t :: (front ++ [c])) = render s.rooted (s.parts ++ t :: front ++ [c]) := by
      simp [Site.path]
    rw [hpath, hloc]
    by_cases hd : w.fs.isDir (s.loc ++ t :: front) = true
    · exact .inl (by simp [hd])
    · refine .inr ⟨by simp [hd], ?_⟩
      have hfalse : w.fs.isDir (s.loc ++ t :: front) = false := by simpa using hd
      have hnone := FS.node_below_eq_none hfalse (List.cons_ne_nil c [])
      simpa using hnone
  · intro ns hne hns
    obtain ⟨b, a, rfl⟩ := List.exists_cons_of_ne_nil hne
    obtain ⟨rfl, ha⟩ := List.cons_prefix_cons.mp hns
    refine h.dirs a (ha.trans (List.prefix_append _ _)) ?_
    rintro rfl
    have := ha.length_le
    simp at this

/-- One removal: what is left, and why it may have failed. -/
structure Removed (m : Mode) (s : Site) (t : Bytes) (rel : Loc) (w : World)
    (r : Except Errno Unit) (w' : World) : Prop where
  node : ∀ a, w'.fs.node (s.loc ++ t :: a) = w.fs.node (s.loc ++ t :: a) ∨
    w'.fs.node (s.loc ++ t :: a) = none
  gone : r = .ok () ∨ r = .error .noent → w'.fs.node (s.loc ++ t :: rel) = none
  failed : ∀ e, r = .error e → e ≠ .noent →
    m.fails (.remove (s.path (t :: rel))) ∨ ¬ w.fs.Removable (s.loc ++ t :: rel)

theorem Clearable.remove (g : Clearable s t R G Own Done) (hown : Own w) (hopen : Open s t rel w)
    {r : Except Errno Unit} (hE : exec m tid (.remove (s.path (t :: rel))) w r w') :
    G w w' ∧ (Own w' ∨ rel = [] ∧ r = .ok () ∧ Done w') ∧ Removed m s t rel w r w' := by
  have hkeep : ∀ {r : Except Errno Unit},
      (r = .ok () ∨ r = .error .noent → w.fs.node (s.loc ++ t :: rel) = none) →
      (∀ e, r = .error e → e ≠ .noent →
        m.fails (.remove (s.path (t :: rel))) ∨ ¬ w.fs.Removable (s.loc ++ t :: rel)) →
      G w w ∧ (Own w ∨ rel = [] ∧ r = .ok () ∧ Done w) ∧ Removed m s t rel w r w :=
    fun hgone hfailed => ⟨g.refl w, .inl hown, fun _ => .inl rfl, hgone, hfailed⟩
  rcases hE with hN | ⟨hf, ⟨k, rfl⟩, rfl⟩ | ⟨_, hC⟩
  · simp only [Nominal] at hN
    rcases hopen.locate (g.leads w hown) g.name with hloc | ⟨hloc, hnone⟩
    · rw [hloc] at hN
      rcases hN with ⟨hnone, rfl, rfl⟩ | ⟨_, hrm, rfl, rfl⟩ | ⟨hrm, _, rfl, rfl⟩
      · exact hkeep (fun _ => hnone) fun e he hne => absurd (Except.error.inj he).symm hne
      · exact hkeep (by simp) fun _ _ _ => .inr hrm
      · obtain ⟨hG, hafter⟩ := g.allow w rel hrm hown
        refine ⟨hG, ?_, fun a => ?_, fun _ => by simp, fun e he => by cases he⟩
        · split at hafter
          · rename_i hrel
            exact .inr ⟨hrel, rfl, hafter⟩
          · exact .inl hafter
        · by_cases ha : a = rel
          · exact .inr (by simp [ha])
          · exact .inl (by simp [ha])
    · rw [hloc] at hN
      obtain ⟨rfl, rfl⟩ := hN
      exact hkeep (fun _ => hnone) fun e he hne => absurd (Except.error.inj he).symm hne
  · exact hkeep (by simp) fun _ _ _ => .inl hf
  · exact hC.elim

/-! ## A listed tree -/

theorem Clearable.stable_open (g : Clearable s t R G Own Done) (plan : List Loc) :
    Stable R fun w => Own w ∧ ∀ rel ∈ plan, Open s t rel w := by
  intro w w' hR ⟨hown, hopen⟩
  obtain ⟨hnode, hown'⟩ := g.quiet w w' hown hR
  exact ⟨hown', fun rel hrel => (hopen rel hrel).of_nodes fun a => .inl (hnode a)⟩

theorem Clearable.stable_own (g : Clearable s t R G Own Done) : Stable R Own :=
  fun w w' hR hown => (g.quiet w w' hown hR).2

theorem Clearable.stable_end (g : Clearable s t R G Own Done) : Stable R fun w => Own w ∨ Done w :=
  g.stable_own.or g.done

/-- The top of a tree comes last in a plan. -/
theorem plan_top {plan : List Loc} (h : (rel :: plan).Pairwise fun a b => ¬ a <+: b)
    (hrel : rel = []) : plan = [] := by
  subst hrel
  cases plan with
  | nil => rfl
  | cons b plan => exact absurd List.nil_prefix ((List.pairwise_cons.mp h).1 b List.mem_cons_self)

/-- Whatever is still there, what is removed is a part of the tree. -/
theorem removePlan_own (g : Clearable s t R G Own Done) (plan : List Loc)
    (horder : plan.Pairwise fun a b => ¬ a <+: b) :
    Triple (exec m tid) R G (fun w => Own w ∧ ∀ rel ∈ plan, Open s t rel w)
      (removePlan (s.path [t]) plan) fun _ w => Own w ∨ Done w := by
  induction plan with
  | nil => exact triple_ret (g.stable_open []) fun _ h => .inl h.1
  | cons rel plan ih =>
      unfold removePlan
      rw [below_path]
      simp only [Prog.bind_eq]
      refine triple_bind (M := fun _ w => (Own w ∧ ∀ rel ∈ plan, Open s t rel w) ∨
        plan = [] ∧ Done w) ?_ fun r => ?_
      · refine triple_perform (g.stable_open _) ?_ fun _ =>
          (g.stable_open plan).or ((Stable.const _).and g.done)
        intro w r w' ⟨hown, hopen⟩ hE
        obtain ⟨hG, hafter, hrm⟩ := g.remove hown (hopen rel List.mem_cons_self) hE
        refine ⟨hG, ?_⟩
        rcases hafter with hown' | ⟨hrel, _, hdone⟩
        · refine .inl ⟨hown', fun a ha => ?_⟩
          exact (hopen a (List.mem_cons_of_mem _ ha)).of_nodes hrm.node
        · exact .inr ⟨plan_top horder hrel, hdone⟩
      · refine triple_bind (M := fun _ w => Own w ∨ Done w) ?_ fun rest => ?_
        · refine triple_or (ih (List.pairwise_cons.mp horder).2) (triple_pure fun hnil => ?_)
          subst hnil
          exact triple_ret g.done fun _ h => .inr h
        · split
          · exact triple_ret g.stable_end fun _ h => h
          · exact triple_ret g.stable_end fun _ h => h
          · exact triple_ret g.stable_end fun _ h => h

/-- The plan lists what is left of the tree, entries of a directory before it. -/
structure Lists (s : Site) (t : Bytes) (plan : List Loc) (w : World) : Prop where
  opens : ∀ rel ∈ plan, Open s t rel w
  all : ∀ rel, w.fs.node (s.loc ++ t :: rel) ≠ none → rel ∈ plan
  order : plan.Pairwise fun a b => ¬ a <+: b

theorem Lists.removable {plan : List Loc} (h : Lists s t (rel :: plan) w) :
    w.fs.Removable (s.loc ++ t :: rel) where
  ne_root := by simp
  leaf := by
    intro c
    by_contra hne
    have hmem := h.all (rel ++ [c]) (by simpa using hne)
    rcases List.mem_cons.mp hmem with heq | hmem
    · have := congrArg List.length heq
      simp at this
    · exact (List.pairwise_cons.mp h.order).1 _ hmem (List.prefix_append _ _)

theorem Lists.tail {plan : List Loc} (h : Lists s t (rel :: plan) w)
    (hnode : ∀ a, w'.fs.node (s.loc ++ t :: a) = w.fs.node (s.loc ++ t :: a) ∨
      w'.fs.node (s.loc ++ t :: a) = none)
    (hgone : w'.fs.node (s.loc ++ t :: rel) = none) : Lists s t plan w' where
  opens a ha := (h.opens a (List.mem_cons_of_mem _ ha)).of_nodes hnode
  all a ha := by
    rcases hnode a with hsame | hnone
    · rcases List.mem_cons.mp (h.all a (hsame ▸ ha)) with rfl | hmem
      · exact absurd hgone ha
      · exact hmem
    · exact absurd hnone ha
  order := (List.pairwise_cons.mp h.order).2

theorem Clearable.stable_lists (g : Clearable s t R G Own Done) (plan : List Loc) :
    Stable R fun w => Own w ∧ Lists s t plan w := by
  intro w w' hR ⟨hown, hl⟩
  obtain ⟨hnode, hown'⟩ := g.quiet w w' hown hR
  refine ⟨hown', fun rel hrel => (hl.opens rel hrel).of_nodes fun a => .inl (hnode a), ?_, hl.order⟩
  intro rel hrel
  exact hl.all rel (hnode rel ▸ hrel)

/-- What has been removed, or why not. -/
def Cleared (m : Mode) (s : Site) (t : Bytes) (Own Done : World → Prop) (r : Except Errno Unit)
    (w : World) : Prop :=
  match r with
  | .ok () => Done w
  | .error _ => (Own w ∨ Done w) ∧ Stuck m s t

theorem Clearable.stable_cleared (g : Clearable s t R G Own Done) (r : Except Errno Unit) :
    Stable R (Cleared m s t Own Done r) := by
  cases r with
  | error e => exact g.stable_end.and (Stable.const _)
  | ok _ => exact g.done

/-- After an entry of a plan: it is gone, or something stands in its way. -/
def EntryRemoved (m : Mode) (s : Site) (t : Bytes) (Own Done : World → Prop) (plan : List Loc)
    (r : Except Errno Unit) (w : World) : Prop :=
  match r with
  | .ok () | .error .noent => (Own w ∧ Lists s t plan w) ∨ plan = [] ∧ Done w
  | .error _ => Stuck m s t ∧ Own w ∧ (plan.Pairwise fun a b => ¬ a <+: b) ∧
      ∀ rel ∈ plan, Open s t rel w

theorem removePlan_lists (g : Clearable s t R G Own Done) (plan : List Loc) :
    Triple (exec m tid) R G (fun w => Own w ∧ Lists s t plan w)
      (removePlan (s.path [t]) plan) (Cleared m s t Own Done) := by
  induction plan with
  | nil =>
      refine triple_ret (g.stable_lists []) fun w hw => g.absent w hw.1 ?_
      by_contra hne
      exact absurd (hw.2.all [] hne) (by simp)
  | cons rel plan ih =>
      unfold removePlan
      rw [below_path]
      simp only [Prog.bind_eq]
      refine triple_bind (M := EntryRemoved m s t Own Done plan) ?_ fun r => ?_
      · unfold EntryRemoved
        refine triple_perform (g.stable_lists _) ?_ fun r => ?_
        · rintro w r w' ⟨hown, hl⟩ hE
          obtain ⟨hG, hafter, hrm⟩ := g.remove hown (hl.opens rel List.mem_cons_self) hE
          refine ⟨hG, ?_⟩
          rcases hafter with hown' | ⟨hrel, rfl, hdone⟩
          · split
            · exact .inl ⟨hown', hl.tail hrm.node (hrm.gone (.inl rfl))⟩
            · exact .inl ⟨hown', hl.tail hrm.node (hrm.gone (.inr rfl))⟩
            · rename_i e hne
              rcases hrm.failed e rfl (fun he => hne (he ▸ rfl)) with hf | hrm'
              · refine ⟨.inl ⟨rel, hf⟩, hown', (List.pairwise_cons.mp hl.order).2, fun a ha => ?_⟩
                exact (hl.opens a (List.mem_cons_of_mem _ ha)).of_nodes hrm.node
              · exact absurd hl.removable hrm'
          · exact .inr ⟨plan_top hl.order hrel, hdone⟩
        · have hst := (g.stable_lists plan).or ((Stable.const (plan = [])).and g.done)
          split
          · exact hst
          · exact hst
          · rintro w w' hR ⟨hstuck, hown, horder, hopen⟩
            obtain ⟨hown', hopen'⟩ := g.stable_open plan w w' hR ⟨hown, hopen⟩
            exact ⟨hstuck, hown', horder, hopen'⟩
      · have hrest : Triple (exec m tid) R G
            (fun w => (Own w ∧ Lists s t plan w) ∨ plan = [] ∧ Done w)
            (removePlan (s.path [t]) plan) (Cleared m s t Own Done) := by
          refine triple_or ih (triple_pure fun hnil => ?_)
          subst hnil
          exact triple_ret g.done fun _ h => h
        have hgone := triple_bind hrest fun rest =>
          triple_ret (g.stable_cleared rest) fun _ h => h
        cases r with
        | ok _ => exact hgone
        | error e =>
            cases e with
            | noent => exact hgone
            | _ =>
                refine triple_pre ?_ fun w h => (⟨⟨h.1, h.2.2.1⟩, h.2.1, h.2.2.2⟩ :
                  (Stuck m s t ∧ plan.Pairwise fun a b => ¬ a <+: b) ∧ Own w ∧
                    ∀ rel ∈ plan, Open s t rel w)
                refine triple_pure fun hpure => ?_
                refine triple_bind (removePlan_own g plan hpure.2) fun rest => ?_
                exact triple_ret g.stable_end fun _ h => ⟨h, hpure.1⟩

/-! ## The whole tree -/

/-- `RemoveAll` after its first attempt. -/
theorem removeListed_spec (g : Clearable s t R G Own Done) :
    Triple (exec m tid) R G Own
      ((Sys.listTree (s.path [t])).bind fun x => match x with
        | .error e => Prog.ret (.error e)
        | .ok plan => removePlan (s.path [t]) plan) (Cleared m s t Own Done) := by
  refine triple_bind (M := fun (r : Except Errno (List Loc)) w => match r with
    | .ok plan => Own w ∧ Lists s t plan w
    | .error _ => (Own w ∨ Done w) ∧ Stuck m s t) ?_ fun r => ?_
  · refine triple_perform g.stable_own ?_ fun r => ?_
    · intro w r w' hown hE
      rcases hE with ⟨rfl, hN⟩ | ⟨hf, ⟨k, rfl⟩, rfl⟩ | ⟨_, hC⟩
      · have hloc : w'.fs.locate (s.path [t]) = .ok (s.loc ++ [t]) := by
          have hat := g.leads w' hown
          have := hat.locate_names [] (c := t) (by simp) g.name
            (by simpa using hat.isDir)
          simpa [Site.path] using this
        rw [hloc] at hN
        obtain ⟨plan, rfl, hmem, horder⟩ := hN
        have hmem' : ∀ rel, rel ∈ plan ↔ w'.fs.node (s.loc ++ t :: rel) ≠ none := by
          simpa using hmem
        refine ⟨g.refl w', hown, fun rel hrel => Open.of_exists ((hmem' rel).mp hrel), ?_, horder⟩
        exact fun rel hrel => (hmem' rel).mpr hrel
      · exact ⟨g.refl w', .inl hown, .inr hf⟩
      · exact hC.elim
    · cases r with
      | ok plan => exact g.stable_lists plan
      | error e => exact g.stable_end.and (Stable.const _)
  · cases r with
    | ok plan => exact removePlan_lists g plan
    | error e => exact triple_ret (g.stable_end.and (Stable.const _)) fun _ h => h

/-- After the top was tried on its own. -/
def TopRemoved (Own Done : World → Prop) (r : Except Errno Unit) (w : World) : Prop :=
  match r with
  | .ok () | .error .noent => Done w
  | .error _ => Own w

theorem removeAll_spec (g : Clearable s t R G Own Done) :
    Triple (exec m tid) R G Own (removeAll (s.path [t])) (Cleared m s t Own Done) := by
  unfold removeAll
  simp only [Prog.bind_eq]
  refine triple_bind (M := TopRemoved Own Done) ?_ fun r => ?_
  · unfold TopRemoved
    refine triple_perform g.stable_own ?_ fun r => ?_
    · intro w r w' hown hE
      obtain ⟨hG, hafter, hrm⟩ := g.remove hown (Open.top s t w) hE
      refine ⟨hG, ?_⟩
      rcases hafter with hown' | ⟨_, rfl, hdone⟩
      · split
        · exact g.absent _ hown' (hrm.gone (.inl rfl))
        · exact g.absent _ hown' (hrm.gone (.inr rfl))
        · exact hown'
      · exact hdone
    · split
      · exact g.done
      · exact g.done
      · exact g.stable_own
  · cases r with
    | ok _ => exact triple_ret g.done fun _ h => h
    | error e =>
        cases e with
        | noent => exact triple_ret g.done fun _ h => h
        | _ => exact removeListed_spec g

end

end BuilderShim.Os
