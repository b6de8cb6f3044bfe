/-
  Build/MetaArgs.lean --- the global arguments of a Dockerfile (applyDockerfileMetaArgs,
  pkg/build/buildopts.go).

  The loop takes a key that has a value for one that the user has set, also if the value
  is that of an earlier declaration.  So it does what the first declarations of all keys
  would do in the order of the Dockerfile (`applyArgs_eq`), where a later declaration
  counts too (`FollowsOrder`).

  What a word expands to in an environment is given; `none` is an error.
-/
import Mathlib.Data.List.Induction
import Mathlib.Logic.Function.Basic
import BuilderShim.Foundation.Bytes
import BuilderShim.Foundation.Loops

set_option autoImplicit false

namespace BuilderShim.Build

open BuilderShim.Foundation

/-- `instructions.KeyValuePairOptional` -/
structure ArgDecl where
  key : Bytes
  value : Option Bytes
  deriving DecidableEq

def ArgDecl.valueString (arg : ArgDecl) : Bytes := arg.value.getD []

/-- `map[string]string`, by what is found under a key. -/
abbrev Env : Type := Bytes → Option Bytes

section

variable (expand : Bytes → Env → Option Bytes)

/-- One round of the loop of `applyDockerfileMetaArgs`. -/
def applyArg (buildArgs : Env) (arg : ArgDecl) : Option Env :=
  match buildArgs arg.key with
  | some _ => some buildArgs
  | none =>
      (expand arg.valueString buildArgs).map fun resolved =>
        Function.update buildArgs arg.key (some resolved)

def applyDockerfileMetaArgs (metaArgs : List (List ArgDecl)) (buildArgs : Env) : Option Env :=
  metaArgs.foldlM (fun buildArgs metaArg => metaArg.foldlM (applyArg expand) buildArgs) buildArgs

/-- The rounds for the declarations of all commands. -/
def applyArgs (user : Env) (decls : List ArgDecl) : Option Env :=
  decls.foldlM (applyArg expand) user

/-! ## The order of the Dockerfile -/

/-- A declaration gives its key a value, unless that is the user's. -/
def declare (user env : Env) (arg : ArgDecl) : Option Env :=
  match user arg.key with
  | some _ => some env
  | none =>
      (expand arg.valueString env).map fun resolved => Function.update env arg.key (some resolved)

/-- The environment of the user's arguments and these declarations. -/
def inOrder (user : Env) (decls : List ArgDecl) : Option Env :=
  decls.foldlM (declare expand user) user

/-- The user's keys keep their values, every other key that is declared has the value of its last
declaration in the environment of what is before it, and there is no other key. -/
structure FollowsOrder (user : Env) (decls : List ArgDecl) (result : Env) : Prop where
  kept : ∀ k v, user k = some v → result k = some v
  last : ∀ before d after, decls = before ++ d :: after → user d.key = none →
    (∀ d' ∈ after, d'.key ≠ d.key) →
      ∃ env v, inOrder expand user before = some env ∧ expand d.valueString env = some v ∧
        result d.key = some v
  others : ∀ k, user k = none → (∀ d ∈ decls, d.key ≠ k) → result k = none

end

/-- The first declaration of every key. -/
def firsts (decls : List ArgDecl) : List ArgDecl :=
  decls.foldl (fun kept d => if d.key ∈ kept.map ArgDecl.key then kept else kept ++ [d]) []

/-! ## Splitting the declarations -/

/-- A declaration of the list with one more at its end is that, or one of the list. -/
theorem concat_eq_append_cons {decls before after : List ArgDecl} {d₀ d : ArgDecl}
    (h : decls ++ [d₀] = before ++ d :: after) :
    (decls = before ∧ d₀ = d ∧ after = []) ∨
      ∃ after', decls = before ++ d :: after' ∧ after = after' ++ [d₀] := by
  rcases List.eq_nil_or_concat' after with rfl | ⟨after', last, rfl⟩
  · obtain ⟨hinit, hlast⟩ := List.append_inj' h rfl
    exact .inl ⟨hinit, List.head_eq_of_cons_eq hlast, rfl⟩
  · rw [← List.cons_append, ← List.append_assoc] at h
    obtain ⟨hinit, hlast⟩ := List.append_inj' h rfl
    exact .inr ⟨after', hinit, by rw [List.head_eq_of_cons_eq hlast]⟩

theorem exists_last_decl {decls : List ArgDecl} {k : Bytes} (h : ∃ d ∈ decls, d.key = k) :
    ∃ before d after, decls = before ++ d :: after ∧ d.key = k ∧ ∀ d' ∈ after, d'.key ≠ d.key := by
  induction decls using List.reverseRecOn with
  | nil =>
      obtain ⟨_, hd, _⟩ := h
      exact absurd hd List.not_mem_nil
  | append_singleton decls d₀ ih =>
      by_cases hlast : d₀.key = k
      · exact ⟨decls, d₀, [], rfl, hlast, fun _ hd => absurd hd List.not_mem_nil⟩
      · obtain ⟨d, hd, hkey⟩ := h
        have hrest : d ∈ decls := (List.mem_append.mp hd).resolve_right fun hmem =>
          hlast (List.mem_singleton.mp hmem ▸ hkey)
        obtain ⟨before, d, after, rfl, hk, hafter⟩ := ih ⟨d, hrest, hkey⟩
        refine ⟨before, d, after ++ [d₀], by rw [List.append_assoc, List.cons_append], hk, ?_⟩
        intro d' hd'
        rcases List.mem_append.mp hd' with hd' | hd'
        · exact hafter d' hd'
        · rw [List.mem_singleton.mp hd', hk]
          exact hlast

section

variable {expand : Bytes → Env → Option Bytes} {user : Env} {decls : List ArgDecl} {d : ArgDecl}
  {result : Env}

/-- The commands one after another are their declarations one after another. -/
theorem applyDockerfileMetaArgs_eq (metaArgs : List (List ArgDecl)) (user : Env) :
    applyDockerfileMetaArgs expand metaArgs user = applyArgs expand user metaArgs.flatten :=
  foldlM_flatten metaArgs user

/-! ## In order -/

theorem declare_user {env : Env} {v : Bytes} (hd : user d.key = some v) :
    declare expand user env d = some env := by
  rw [declare, hd]

theorem declare_eq_some {env env' : Env} (hd : user d.key = none)
    (h : declare expand user env d = some env') :
    ∃ v, expand d.valueString env = some v ∧ env' = Function.update env d.key (some v) := by
  rw [declare, hd] at h
  obtain ⟨v, hexpand, rfl⟩ := Option.map_eq_some_iff.mp h
  exact ⟨v, hexpand, rfl⟩

/-- One more declaration of a key that the user has set changes nothing. -/
theorem FollowsOrder.concat_user {v : Bytes} (h : FollowsOrder expand user decls result)
    (hd : user d.key = some v) : FollowsOrder expand user (decls ++ [d]) result := by
  refine ⟨h.kept, fun before d' after hsplit huser hlast => ?_, fun k hk hnone => ?_⟩
  · rcases concat_eq_append_cons hsplit with ⟨_, rfl, _⟩ | ⟨after', hdecls, rfl⟩
    · rw [hd] at huser
      cases huser
    · exact h.last before d' after' hdecls huser fun d'' hd'' =>
        hlast d'' (List.mem_append_left _ hd'')
  · exact h.others k hk fun d' hd' => hnone d' (List.mem_append_left _ hd')

/-- One more declaration of another key gives it a value. -/
theorem FollowsOrder.concat {env : Env} {v : Bytes} (h : FollowsOrder expand user decls env)
    (henv : inOrder expand user decls = some env) (hd : user d.key = none)
    (hexpand : expand d.valueString env = some v) :
    FollowsOrder expand user (decls ++ [d]) (Function.update env d.key (some v)) := by
  refine ⟨fun k w hk => ?_, fun before d' after hsplit huser hlast => ?_, fun k hk hnone => ?_⟩
  · have hne : k ≠ d.key := by
      rintro rfl
      rw [hd] at hk
      cases hk
    rw [Function.update_of_ne hne]
    exact h.kept k w hk
  · rcases concat_eq_append_cons hsplit with ⟨rfl, rfl, rfl⟩ | ⟨after', hdecls, rfl⟩
    · exact ⟨env, v, henv, hexpand, Function.update_self _ _ _⟩
    · obtain ⟨env', w, henv', hexpand', hw⟩ := h.last before d' after' hdecls huser
        fun d'' hd'' => hlast d'' (List.mem_append_left _ hd'')
      have hne : d'.key ≠ d.key := (hlast d (List.mem_append_right _ List.mem_cons_self)).symm
      exact ⟨env', w, henv', hexpand', by rwa [Function.update_of_ne hne]⟩
  · have hne : d.key ≠ k := hnone d (List.mem_append_right _ List.mem_cons_self)
    rw [Function.update_of_ne hne.symm]
    exact h.others k hk fun d' hd' => hnone d' (List.mem_append_left _ hd')

theorem followsOrder_of_inOrder (h : inOrder expand user decls = some result) :
    FollowsOrder expand user decls result := by
  induction decls using List.reverseRecOn generalizing result with
  | nil =>
      cases h
      refine ⟨fun _ _ hk => hk, fun before d after hsplit => ?_, fun _ hk _ => hk⟩
      exact absurd hsplit (by simp)
  | append_singleton decls d ih =>
      obtain ⟨env, henv, hdeclare⟩ := foldlM_concat.mp h
      cases huser : user d.key with
      | some v =>
          rw [declare_user huser] at hdeclare
          cases hdeclare
          exact (ih henv).concat_user huser
      | none =>
          obtain ⟨v, hexpand, rfl⟩ := declare_eq_some huser hdeclare
          exact (ih henv).concat henv huser hexpand

/-- There is one environment that follows the order. -/
theorem FollowsOrder.unique {result' : Env} (h : FollowsOrder expand user decls result)
    (h' : FollowsOrder expand user decls result') : result = result' := by
  funext k
  cases huser : user k with
  | some v => rw [h.kept k v huser, h'.kept k v huser]
  | none =>
      by_cases hdeclared : ∃ d ∈ decls, d.key = k
      · obtain ⟨before, d, after, hsplit, rfl, hlast⟩ := exists_last_decl hdeclared
        obtain ⟨env, v, henv, hv, hresult⟩ := h.last before d after hsplit huser hlast
        obtain ⟨env', v', henv', hv', hresult'⟩ := h'.last before d after hsplit huser hlast
        rw [henv] at henv'
        cases henv'
        rw [hv] at hv'
        rw [hresult, hresult', hv']
      · have hnone : ∀ d ∈ decls, d.key ≠ k := fun d hd hkey => hdeclared ⟨d, hd, hkey⟩
        rw [h.others k huser hnone, h'.others k huser hnone]

/-- If the last declaration of every key can be resolved, all can. -/
theorem exists_inOrder
    (h : ∀ before d after, decls = before ++ d :: after → user d.key = none →
      (∀ d' ∈ after, d'.key ≠ d.key) →
        ∃ env v, inOrder expand user before = some env ∧ expand d.valueString env = some v) :
    ∃ env, inOrder expand user decls = some env := by
  induction decls using List.reverseRecOn with
  | nil => exact ⟨user, rfl⟩
  | append_singleton decls d₀ ih =>
      cases huser : user d₀.key with
      | some v =>
          obtain ⟨env, henv⟩ := ih fun before d after hsplit hd hlast => by
            refine h before d (after ++ [d₀]) ?_ hd fun d' hd' => ?_
            · rw [hsplit, List.append_assoc, List.cons_append]
            · rcases List.mem_append.mp hd' with hd' | hd'
              · exact hlast d' hd'
              · rw [List.mem_singleton.mp hd']
                rintro heq
                rw [heq, hd] at huser
                cases huser
          exact ⟨env, foldlM_concat.mpr ⟨env, henv, declare_user huser⟩⟩
      | none =>
          obtain ⟨env, v, henv, hexpand⟩ :=
            h decls d₀ [] rfl huser fun _ hd => absurd hd List.not_mem_nil
          have hdeclare : declare expand user env d₀ =
              some (Function.update env d₀.key (some v)) := by
            rw [declare, huser, hexpand]
            rfl
          exact ⟨_, foldlM_concat.mpr ⟨env, henv, hdeclare⟩⟩

theorem FollowsOrder.inOrder_eq (h : FollowsOrder expand user decls result) :
    inOrder expand user decls = some result := by
  obtain ⟨env, henv⟩ := exists_inOrder fun before d after hsplit huser hlast => by
    obtain ⟨env, v, henv, hexpand, _⟩ := h.last before d after hsplit huser hlast
    exact ⟨env, v, henv, hexpand⟩
  rw [henv, h.unique (followsOrder_of_inOrder henv)]

/-! ## The loop against the order -/

theorem firsts_concat (decls : List ArgDecl) (d : ArgDecl) :
    firsts (decls ++ [d]) =
      if d.key ∈ (firsts decls).map ArgDecl.key then firsts decls else firsts decls ++ [d] :=
  List.foldl_append

theorem mem_keys_firsts {k : Bytes} :
    k ∈ (firsts decls).map ArgDecl.key ↔ k ∈ decls.map ArgDecl.key := by
  induction decls using List.reverseRecOn with
  | nil => exact Iff.rfl
  | append_singleton decls d ih =>
      rw [firsts_concat, List.map_append, List.mem_append, ← ih]
      split
      · rename_i hold
        refine ⟨.inl, fun h => h.elim id fun hnew => ?_⟩
        rw [List.mem_singleton.mp hnew]
        exact hold
      · rw [List.map_append, List.mem_append]

/-- What has a value in the order of the Dockerfile. -/
theorem inOrder_isNone (h : inOrder expand user decls = some result) {k : Bytes} :
    result k = none ↔ user k = none ∧ k ∉ decls.map ArgDecl.key := by
  have hfollows := followsOrder_of_inOrder h
  constructor
  · intro hnone
    have huser : user k = none := by
      cases huser : user k with
      | none => rfl
      | some v => cases hnone.symm.trans (hfollows.kept k v huser)
    refine ⟨huser, fun hmem => ?_⟩
    obtain ⟨before, d, after, hsplit, rfl, hlast⟩ := exists_last_decl (List.mem_map.mp hmem)
    obtain ⟨_, v, _, _, hv⟩ := hfollows.last before d after hsplit huser hlast
    cases hnone.symm.trans hv
  · rintro ⟨huser, hmem⟩
    exact hfollows.others k huser fun d hd hkey => hmem (List.mem_map.mpr ⟨d, hd, hkey⟩)

/-- One round of the loop, after the declarations that it has taken over. -/
theorem applyArg_eq (h : inOrder expand user decls = some result) (d : ArgDecl) :
    applyArg expand result d =
      if d.key ∈ decls.map ArgDecl.key then some result else declare expand user result d := by
  have hnone := inOrder_isNone h (k := d.key)
  split
  · rename_i hold
    cases hkey : result d.key with
    | none => exact ((hnone.mp hkey).2 hold).elim
    | some v => rw [applyArg, hkey]
  · rename_i hnew
    rw [applyArg, declare]
    cases huser : user d.key with
    | none => rw [hnone.mpr ⟨huser, hnew⟩]
    | some v => rw [(followsOrder_of_inOrder h).kept d.key v huser]

/-- The loop does what the first declarations do in order. -/
theorem applyArgs_eq (expand : Bytes → Env → Option Bytes) (user : Env) (decls : List ArgDecl) :
    applyArgs expand user decls = inOrder expand user (firsts decls) := by
  induction decls using List.reverseRecOn with
  | nil => rfl
  | append_singleton decls d ih =>
      rw [applyArgs, foldlM_snoc, ← applyArgs, ih, firsts_concat]
      cases henv : inOrder expand user (firsts decls) with
      | none =>
          split
          · exact henv.symm
          · rw [inOrder, foldlM_snoc, ← inOrder, henv]
            rfl
      | some env =>
          rw [Option.bind_some, applyArg_eq henv d]
          split
          · exact henv.symm
          · rw [inOrder, foldlM_snoc, ← inOrder, henv, Option.bind_some]

/-- In particular they are all that counts if only keys of the user are declared again. -/
theorem inOrder_firsts (h : decls.Pairwise fun d d' => user d'.key = none → d.key ≠ d'.key) :
    inOrder expand user decls = inOrder expand user (firsts decls) := by
  induction decls using List.reverseRecOn with
  | nil => rfl
  | append_singleton decls d ih =>
      obtain ⟨hdecls, _, hlast⟩ := List.pairwise_append.mp h
      rw [inOrder, foldlM_snoc, ← inOrder, ih hdecls, firsts_concat]
      split
      · rename_i hold
        obtain ⟨d', hd', hkey⟩ := List.mem_map.mp (mem_keys_firsts.mp hold)
        cases huser : user d.key with
        | none => exact (hlast d' hd' d (List.mem_singleton_self d) huser hkey).elim
        | some v =>
            cases inOrder expand user (firsts decls) with
            | none => rfl
            | some env => exact declare_user huser
      · rw [inOrder, inOrder, foldlM_snoc]

end

/-- Where the loop succeeds, its result is that of the order of the Dockerfile exactly if there
the first declarations of all keys give what all declarations give. -/
theorem applyDockerfileMetaArgs_followsOrder_iff (expand : Bytes → Env → Option Bytes)
    (metaArgs : List (List ArgDecl)) (user result : Env)
    (h : applyDockerfileMetaArgs expand metaArgs user = some result) :
    FollowsOrder expand user metaArgs.flatten result ↔
      inOrder expand user metaArgs.flatten = inOrder expand user (firsts metaArgs.flatten) := by
  rw [applyDockerfileMetaArgs_eq, applyArgs_eq] at h
  rw [h]
  exact ⟨FollowsOrder.inOrder_eq, followsOrder_of_inOrder⟩

/-- An expansion that leaves every word as it is. -/
def verbatim : Bytes → Env → Option Bytes := fun word _ => some word

/-- No arguments. -/
def noArgs : Env := fun _ => none

/-- `ARG A=1` -/
def argOne : ArgDecl := ⟨lit "A", some (lit "1")⟩

/-- `ARG A=2` -/
def argTwo : ArgDecl := ⟨lit "A", some (lit "2")⟩

/-- The environment with `A` alone. -/
def envOne : Env := Function.update noArgs (lit "A") (some (lit "1"))

theorem envOne_eq : envOne (lit "A") = some (lit "1") := Function.update_self _ _ _

/-- `ARG B=$A`, where words are expanded by looking up what is behind the dollar sign. -/
def argRef : ArgDecl := ⟨lit "B", some (lit "$A")⟩

def lookUp : Bytes → Env → Option Bytes
  | 36 :: name, env => env name
  | word, _ => some word

/-- Two commands, of which the second refers to the first, and a key that the user has set. -/
theorem followsOrder_two :
    FollowsOrder lookUp (Function.update noArgs (lit "C") (some (lit "u")))
      [argOne, ⟨lit "C", none⟩, argRef, ⟨lit "C", none⟩]
      (Function.update (Function.update (Function.update noArgs (lit "C") (some (lit "u")))
        (lit "A") (some (lit "1"))) (lit "B") (some (lit "1"))) := by
  refine (applyDockerfileMetaArgs_followsOrder_iff lookUp
    [[argOne, ⟨lit "C", none⟩], [argRef, ⟨lit "C", none⟩]] _ _ rfl).mpr (inOrder_firsts ?_)
  decide

/-- A key that is declared twice ends with the first value. -/
theorem redeclared_keeps_first :
    applyDockerfileMetaArgs verbatim [[argOne], [argTwo]] noArgs = some envOne ∧
      ¬ FollowsOrder verbatim noArgs [argOne, argTwo] envOne := by
  refine ⟨rfl, fun hfollows => ?_⟩
  obtain ⟨env, v, _, hexpand, hv⟩ := hfollows.last [argOne] argTwo [] rfl rfl fun _ hd =>
    absurd hd List.not_mem_nil
  have hsame : envOne argTwo.key = some (lit "1") := envOne_eq
  cases hexpand
  rw [hsame] at hv
  exact absurd (Option.some.inj hv) (by decide)

end BuilderShim.Build
