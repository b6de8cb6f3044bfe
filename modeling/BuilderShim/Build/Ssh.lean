/-
  Build/Ssh.lean --- the SSH agents that a build may use (extractSSHAgentConfigs and
  isForwardedSSHSocketPath, pkg/build/buildopts.go).

  An element of the request is the word `default`, or an id and the path of a socket that
  the host forwards.  `Forwards` says what an element asks for, without the loop: the loop
  succeeds exactly if every element asks for something and no two ask for the same id,
  and returns what they ask for.
-/
import Mathlib.Data.List.Forall2
import BuilderShim.GoLib.Filepath
import BuilderShim.GoLib.Strings

set_option autoImplicit false

namespace BuilderShim.Build

open BuilderShim.Filepath

/-- `sshprovider.AgentConfig` -/
structure AgentConfig where
  id : Bytes
  paths : List Bytes
  deriving DecidableEq, Repr

def socketDirectory : Bytes := lit "/var/host-services/"

def socketPrefix : Bytes := lit "ssh-auth"

def socketSuffix : Bytes := lit ".sock"

def isForwardedSSHSocketPath (path : Bytes) : Bool :=
  if !Strings.hasPrefix path socketDirectory then false
  else
    let name := Strings.trimPrefix path socketDirectory
    if name == [] || Strings.containsByte name slash then false
    else Strings.hasPrefix name socketPrefix && Strings.hasSuffix name socketSuffix

/-- The word for the default agent. -/
def defaultAgent : Bytes := lit "default"

/-- The loop of `extractSSHAgentConfigs`: the ids seen and the configs so far.  `none` is
`ErrUnsupportedSSH`. -/
def extractLoop : List Bytes → List Bytes → List AgentConfig → Option (List AgentConfig)
  | [], _, agentConfigs => some agentConfigs
  | value :: values, seenIDs, agentConfigs =>
      let value := Strings.trimSpace value
      if value = defaultAgent then
        if defaultAgent ∈ seenIDs then none
        else
          extractLoop values (defaultAgent :: seenIDs) (agentConfigs ++ [⟨defaultAgent, []⟩])
      else
        match Strings.cut 61 value with
        | none => none
        | some (id, path) =>
            let id := Strings.trimSpace id
            let path := Strings.trimSpace path
            if id = [] ∨ isForwardedSSHSocketPath path = false then none
            else if id ∈ seenIDs then none
            else extractLoop values (id :: seenIDs) (agentConfigs ++ [⟨id, [path]⟩])

def extractSSHAgentConfigs (values : List Bytes) : Option (List AgentConfig) :=
  if values.length = 0 then some [] else extractLoop values [] []

/-! ## What an element asks for -/

/-- A socket in the forwarded directory. -/
def SocketPath (path : Bytes) : Prop :=
  ∃ name, path = socketDirectory ++ name ∧ slash ∉ name ∧ socketPrefix <+: name ∧
    socketSuffix <:+ name

/-- An id and the path of a socket. -/
def IdAndPath (value id path : Bytes) : Prop :=
  ∃ before after, value = before ++ 61 :: after ∧ 61 ∉ before ∧ id = Strings.trimSpace before ∧
    path = Strings.trimSpace after ∧ id ≠ [] ∧ SocketPath path

/-- The element is the word `default`, or an id and the path of a socket. -/
def Allowed (value : Bytes) : Prop :=
  Strings.trimSpace value = defaultAgent ∨ ∃ id path, IdAndPath (Strings.trimSpace value) id path

/-- What the element asks for. -/
def Forwards (value : Bytes) (config : AgentConfig) : Prop :=
  (Strings.trimSpace value = defaultAgent ∧ config = ⟨defaultAgent, []⟩) ∨
    ∃ id path, IdAndPath (Strings.trimSpace value) id path ∧ config = ⟨id, [path]⟩

/-- The id of an element: what is before the first `=`, or all of it. -/
def idOf (value : Bytes) : Bytes :=
  match Strings.cut 61 (Strings.trimSpace value) with
  | some (id, _) => Strings.trimSpace id
  | none => Strings.trimSpace value

variable {path value : Bytes} {config : AgentConfig} {values : List Bytes}
  {configs : List AgentConfig}

/-- `isForwardedSSHSocketPath` accepts the sockets in the directory. -/
theorem isForwardedSSHSocketPath_iff :
    isForwardedSSHSocketPath path = true ↔ SocketPath path := by
  unfold isForwardedSSHSocketPath SocketPath
  constructor
  · intro h
    split at h
    · cases h
    · rename_i hdir
      have hdir : Strings.hasPrefix path socketDirectory = true := by simpa using hdir
      obtain ⟨name, rfl⟩ := List.isPrefixOf_iff_prefix.mp hdir
      have htrim : Strings.trimPrefix (socketDirectory ++ name) socketDirectory = name := by
        rw [Strings.trimPrefix, if_pos hdir, List.drop_left]
      rw [htrim] at h
      dsimp only at h
      split at h
      · cases h
      · rename_i hname
        obtain ⟨hstart, hend⟩ := Bool.and_eq_true_iff.mp h
        refine ⟨name, rfl, fun hslash => hname ?_, List.isPrefixOf_iff_prefix.mp hstart,
          List.isSuffixOf_iff_suffix.mp hend⟩
        rw [Strings.containsByte, decide_eq_true hslash, Bool.or_true]
  · rintro ⟨name, rfl, hslash, hstart, hend⟩
    have hdir : Strings.hasPrefix (socketDirectory ++ name) socketDirectory = true :=
      List.isPrefixOf_iff_prefix.mpr (List.prefix_append _ _)
    have htrim : Strings.trimPrefix (socketDirectory ++ name) socketDirectory = name := by
      rw [Strings.trimPrefix, if_pos hdir, List.drop_left]
    have hne : name ≠ [] := by
      rintro rfl
      exact absurd (List.prefix_nil.mp hstart) (by decide)
    rw [hdir, htrim]
    simp only [Bool.not_true, Bool.false_eq_true, if_false, beq_eq_false_iff_ne.mpr hne,
      Strings.containsByte, decide_eq_false hslash, Bool.or_self]
    exact Bool.and_eq_true_iff.mpr
      ⟨List.isPrefixOf_iff_prefix.mpr hstart, List.isSuffixOf_iff_suffix.mpr hend⟩

theorem defaultAgent_no_equals : 61 ∉ defaultAgent := by decide

theorem IdAndPath.cut {id : Bytes} (h : IdAndPath value id path) :
    ∃ before after, Strings.cut 61 value = some (before, after) ∧ id = Strings.trimSpace before ∧
      path = Strings.trimSpace after := by
  obtain ⟨before, after, rfl, hequals, hid, hpath, _⟩ := h
  exact ⟨before, after, Strings.cut_append 61 after hequals, hid, hpath⟩

theorem IdAndPath.ne_default {id : Bytes} (h : IdAndPath value id path) :
    value ≠ defaultAgent := by
  obtain ⟨before, after, heq, _⟩ := h
  intro hdefault
  refine defaultAgent_no_equals ?_
  rw [← hdefault, heq]
  exact List.mem_append_right _ List.mem_cons_self

theorem Forwards.id_eq (h : Forwards value config) :
    config.id = idOf value := by
  unfold idOf
  rcases h with ⟨hdefault, rfl⟩ | ⟨id, path, hpair, rfl⟩
  · have hcut : Strings.cut 61 defaultAgent = none := by decide
    rw [hdefault, hcut]
  · obtain ⟨before, after, hcut, hid, _⟩ := hpair.cut
    rw [hcut]
    exact hid

theorem Forwards.eq {config' : AgentConfig} (h : Forwards value config)
    (h' : Forwards value config') : config = config' := by
  rcases h with ⟨hdefault, rfl⟩ | ⟨id, path, hpair, rfl⟩
  · rcases h' with ⟨_, rfl⟩ | ⟨id, path, hpair, rfl⟩
    · rfl
    · exact absurd hdefault hpair.ne_default
  · rcases h' with ⟨hdefault, rfl⟩ | ⟨id', path', hpair', rfl⟩
    · exact absurd hdefault hpair.ne_default
    · obtain ⟨before, after, hcut, hid, hpath⟩ := hpair.cut
      obtain ⟨before', after', hcut', hid', hpath'⟩ := hpair'.cut
      rw [hcut] at hcut'
      cases hcut'
      rw [hid, hpath, hid', hpath']

theorem allowed_iff : Allowed value ↔ ∃ config, Forwards value config := by
  constructor
  · rintro (hdefault | ⟨id, path, hpair⟩)
    · exact ⟨_, .inl ⟨hdefault, rfl⟩⟩
    · exact ⟨_, .inr ⟨id, path, hpair, rfl⟩⟩
  · rintro ⟨_, ⟨hdefault, _⟩ | ⟨id, path, hpair, _⟩⟩
    · exact .inl hdefault
    · exact .inr ⟨id, path, hpair⟩

/-! ## The loop -/

/-- An element that asks for something is taken unless its id was seen. -/
theorem extractLoop_of_forwards (h : Forwards value config) (values seenIDs : List Bytes)
    (agentConfigs : List AgentConfig) :
    extractLoop (value :: values) seenIDs agentConfigs =
      if config.id ∈ seenIDs then none
      else extractLoop values (config.id :: seenIDs) (agentConfigs ++ [config]) := by
  rw [extractLoop]
  dsimp only
  rcases h with ⟨hdefault, rfl⟩ | ⟨id, path, hpair, rfl⟩
  · rw [if_pos hdefault]
  · have hother := hpair.ne_default
    obtain ⟨before, after, hcut, rfl, rfl⟩ := hpair.cut
    obtain ⟨_, _, _, _, _, _, hne, hsocket⟩ := hpair
    have htaken : ¬ (Strings.trimSpace before = [] ∨
        isForwardedSSHSocketPath (Strings.trimSpace after) = false) := by
      rw [isForwardedSSHSocketPath_iff.mpr hsocket]
      simpa using hne
    rw [if_neg hother, hcut]
    dsimp only
    rw [if_neg htaken]

/-- An element that asks for nothing is an error. -/
theorem extractLoop_of_not_allowed (h : ¬ Allowed value) (values seenIDs : List Bytes)
    (agentConfigs : List AgentConfig) :
    extractLoop (value :: values) seenIDs agentConfigs = none := by
  rw [extractLoop]
  dsimp only
  rw [if_neg fun hdefault => h (.inl hdefault)]
  split
  · rfl
  · rename_i before after hcut
    rw [if_pos]
    by_contra hboth
    obtain ⟨hne, hsocket⟩ := not_or.mp hboth
    obtain ⟨heq, hequals⟩ := Strings.cut_eq_some hcut
    refine h (.inr ⟨Strings.trimSpace before, Strings.trimSpace after, before, after, heq, hequals,
      rfl, rfl, hne, isForwardedSSHSocketPath_iff.mp ?_⟩)
    simpa using hsocket

/-- What the loop adds to the configs so far. -/
theorem extractLoop_eq_some_iff {seenIDs : List Bytes} {agentConfigs result : List AgentConfig} :
    extractLoop values seenIDs agentConfigs = some result ↔
      ∃ more, result = agentConfigs ++ more ∧ List.Forall₂ Forwards values more ∧
        (more.map AgentConfig.id).Nodup ∧ ∀ config ∈ more, config.id ∉ seenIDs := by
  induction values generalizing seenIDs agentConfigs with
  | nil =>
      constructor
      · intro h
        cases h
        exact ⟨[], (List.append_nil _).symm, .nil, List.nodup_nil,
          fun _ h => absurd h List.not_mem_nil⟩
      · rintro ⟨more, rfl, hmore, _⟩
        cases hmore
        rw [List.append_nil]
        rfl
  | cons value values ih =>
      by_cases hallowed : Allowed value
      · obtain ⟨config, hconfig⟩ := allowed_iff.mp hallowed
        rw [extractLoop_of_forwards hconfig]
        by_cases hseen : config.id ∈ seenIDs
        · rw [if_pos hseen]
          refine iff_of_false (fun h => by cases h) ?_
          rintro ⟨more, _, hmore, _, hfresh⟩
          cases hmore with
          | cons hhead _ => exact hfresh _ List.mem_cons_self (hhead.eq hconfig ▸ hseen)
        · rw [if_neg hseen, ih]
          constructor
          · rintro ⟨more, rfl, hmore, hnodup, hfresh⟩
            refine ⟨config :: more, by rw [List.append_assoc, List.singleton_append],
              .cons hconfig hmore, List.nodup_cons.mpr ⟨fun hmem => ?_, hnodup⟩,
              List.forall_mem_cons.mpr ⟨hseen, fun c hc hmem => ?_⟩⟩
            · obtain ⟨c, hc, heq⟩ := List.mem_map.mp hmem
              exact hfresh c hc (heq ▸ List.mem_cons_self)
            · exact hfresh c hc (List.mem_cons_of_mem _ hmem)
          · rintro ⟨more, rfl, hmore, hnodup, hfresh⟩
            cases hmore with
            | @cons _ config' _ more hhead htail =>
                obtain rfl := hhead.eq hconfig
                obtain ⟨hnew, hnodup⟩ := List.nodup_cons.mp hnodup
                refine ⟨more, by rw [List.append_assoc, List.singleton_append], htail, hnodup,
                  fun c hc hmem => ?_⟩
                rcases List.mem_cons.mp hmem with heq | hmem
                · exact hnew (heq ▸ List.mem_map_of_mem hc)
                · exact hfresh c (List.mem_cons_of_mem _ hc) hmem
      · rw [extractLoop_of_not_allowed hallowed]
        refine iff_of_false (fun h => by cases h) ?_
        rintro ⟨more, _, hmore, _⟩
        cases hmore with
        | cons hhead _ => exact hallowed (allowed_iff.mpr ⟨_, hhead⟩)

/-- `extractSSHAgentConfigs` returns what the elements ask for, if they are apart. -/
theorem extractSSHAgentConfigs_eq_some_iff :
    extractSSHAgentConfigs values = some configs ↔
      List.Forall₂ Forwards values configs ∧ (configs.map AgentConfig.id).Nodup := by
  have hloop : extractSSHAgentConfigs values = extractLoop values [] [] := by
    unfold extractSSHAgentConfigs
    split
    · rename_i hlen
      rw [List.length_eq_zero_iff.mp hlen]
      rfl
    · rfl
  rw [hloop, extractLoop_eq_some_iff]
  constructor
  · rintro ⟨more, rfl, hmore, hnodup, _⟩
    exact ⟨hmore, hnodup⟩
  · rintro ⟨hmore, hnodup⟩
    exact ⟨configs, rfl, hmore, hnodup, fun _ _ => List.not_mem_nil⟩

/-! ## Where the paths lead -/

/-- The path is that of an entry of the forwarded directory, also after cleaning. -/
structure DirectChild (path : Bytes) : Prop where
  dir_eq : dir (clean path) = lit "/var/host-services"
  name : Name (base (clean path))

theorem SocketPath.directChild (h : SocketPath path) : DirectChild path := by
  obtain ⟨name, rfl, hslash, hstart, _⟩ := h
  have hname : Name name := by
    obtain ⟨rest, rfl⟩ := hstart
    have hlit : socketPrefix = 115 :: lit "sh-auth" := by decide
    rw [hlit, List.cons_append] at hslash ⊢
    exact ⟨List.cons_ne_nil _ _, fun hdot => absurd (List.cons.inj hdot).1 (by decide),
      fun hdot => absurd (List.cons.inj hdot).1 (by decide), hslash⟩
  have hnames : ∀ c ∈ [lit "var", lit "host-services"], Name c := by
    intro c hc
    rcases List.mem_pair.mp hc with rfl | rfl
    · decide
    · decide
  have hparts : CleanParts true [lit "var", lit "host-services"] := cleanParts_of_names hnames
  obtain ⟨front, hends, hclean, happend⟩ := render_append_name hparts
  have hfront : front = socketDirectory := by
    have hempty := happend []
    rw [List.append_nil] at hempty
    rw [← hempty]
    decide
  subst hfront
  have hall : CleanParts true ([lit "var", lit "host-services"] ++ [name]) :=
    cleanParts_of_names fun c hc => (List.mem_append.mp hc).elim (hnames c)
      fun hlast => List.mem_singleton.mp hlast ▸ hname
  have hsame : clean (socketDirectory ++ name) = socketDirectory ++ name := by
    rw [← happend, clean_render hall]
  constructor
  · rw [hsame, dir_append hends hslash, hclean]
    decide
  · rw [hsame, base_append hends hslash hname.ne_nil]
    exact hname

/-- What a successful call returns: for each element, in order, what it asks for, with at most
one path, and that a direct child of the forwarded directory. -/
structure Confined (values : List Bytes) (configs : List AgentConfig) : Prop where
  each : List.Forall₂ Forwards values configs
  ids : configs.map AgentConfig.id = values.map idOf
  single : ∀ config ∈ configs, config.paths.length ≤ 1
  child : ∀ config ∈ configs, ∀ path ∈ config.paths, DirectChild path

theorem Forwards.confined (h : Forwards value config) :
    config.paths.length ≤ 1 ∧ ∀ path ∈ config.paths, DirectChild path := by
  rcases h with ⟨_, rfl⟩ | ⟨id, path, hpair, rfl⟩
  · exact ⟨Nat.zero_le _, fun _ hpath => absurd hpath List.not_mem_nil⟩
  · obtain ⟨_, _, _, _, _, _, _, hsocket⟩ := hpair
    exact ⟨Nat.le_refl _, List.forall_mem_singleton.mpr hsocket.directChild⟩

theorem ids_eq (h : List.Forall₂ Forwards values configs) :
    configs.map AgentConfig.id = values.map idOf := by
  induction h with
  | nil => rfl
  | cons hhead _ ih => rw [List.map_cons, List.map_cons, hhead.id_eq, ih]

theorem exists_forall₂ (h : ∀ value ∈ values, Allowed value) :
    ∃ configs, List.Forall₂ Forwards values configs := by
  induction values with
  | nil => exact ⟨[], .nil⟩
  | cons value values ih =>
      obtain ⟨hvalue, hvalues⟩ := List.forall_mem_cons.mp h
      obtain ⟨config, hconfig⟩ := allowed_iff.mp hvalue
      obtain ⟨configs, hconfigs⟩ := ih hvalues
      exact ⟨config :: configs, .cons hconfig hconfigs⟩

theorem allowed_of_forall₂ (h : List.Forall₂ Forwards values configs) :
    ∀ value ∈ values, Allowed value := by
  induction h with
  | nil => exact fun _ hvalue => absurd hvalue List.not_mem_nil
  | cons hhead _ ih => exact List.forall_mem_cons.mpr ⟨allowed_iff.mpr ⟨_, hhead⟩, ih⟩

theorem confined_of_forall₂ (h : List.Forall₂ Forwards values configs) :
    ∀ config ∈ configs, config.paths.length ≤ 1 ∧ ∀ path ∈ config.paths, DirectChild path := by
  induction h with
  | nil => exact fun _ hconfig => absurd hconfig List.not_mem_nil
  | cons hhead _ ih => exact List.forall_mem_cons.mpr ⟨hhead.confined, ih⟩

/-- The request is accepted exactly if every element is the word `default` or an id with the
path of a forwarded socket, and no id occurs twice; and then nothing but forwarded sockets is
handed on. -/
theorem extractSSHAgentConfigs_confined (values : List Bytes) :
    ((∃ configs, extractSSHAgentConfigs values = some configs) ↔
      (∀ value ∈ values, Allowed value) ∧ (values.map idOf).Nodup) ∧
    ∀ configs, extractSSHAgentConfigs values = some configs → Confined values configs := by
  refine ⟨⟨?_, ?_⟩, fun configs hconfigs => ?_⟩
  · rintro ⟨configs, hconfigs⟩
    obtain ⟨heach, hnodup⟩ := extractSSHAgentConfigs_eq_some_iff.mp hconfigs
    exact ⟨allowed_of_forall₂ heach, ids_eq heach ▸ hnodup⟩
  · rintro ⟨hallowed, hnodup⟩
    obtain ⟨configs, heach⟩ := exists_forall₂ hallowed
    exact ⟨configs, extractSSHAgentConfigs_eq_some_iff.mpr ⟨heach, (ids_eq heach).symm ▸ hnodup⟩⟩
  · obtain ⟨heach, _⟩ := extractSSHAgentConfigs_eq_some_iff.mp hconfigs
    exact ⟨heach, ids_eq heach, fun config hconfig => (confined_of_forall₂ heach config hconfig).1,
      fun config hconfig => (confined_of_forall₂ heach config hconfig).2⟩

end BuilderShim.Build
