/-
  Build/AddedGlobs.lean --- the files that a Dockerfile names (dockerfileAddedGlobs and
  runMountGlobs, pkg/build/buildopts.go; the mounts are read by
  vendor/github.com/moby/buildkit/frontend/dockerfile/instructions).

  The list stands in for the paths to follow when BuildKit sends none.  Of a COPY or ADD
  it gets the first argument only; of a RUN the source of every mount that binds a path
  of the context, with its leading slash taken off and cleaned, as long as the mount names
  a source.
-/
import Mathlib.Data.List.Induction
import BuilderShim.Foundation.Loops
import BuilderShim.GoLib.Csv
import BuilderShim.GoLib.Filepath
import BuilderShim.GoLib.Maps
import BuilderShim.GoLib.Strings

set_option autoImplicit false

namespace BuilderShim.Build

open BuilderShim.Filepath
open BuilderShim.Foundation
open BuilderShim.Maps

/-- `parser.Node` of an instruction: its word, the values along its `Next`, and its flags. -/
structure Node where
  value : Bytes
  args : List Bytes
  flags : List Bytes
  deriving DecidableEq

/-- What is given: how a text beyond ASCII is lowered, whether an argument is a here-document,
whether `ParseInstruction` makes a `RunCommand` of a node, and which numbers are accepted. -/
structure Reading where
  lowerUnicode : Bytes → Bytes
  isHeredoc : Bytes → Bool
  parsesRun : Node → Bool
  ramInBytes : Bytes → Bool
  parseUint : Nat → Bytes → Bool

/-! ## Mounts -/

inductive MountType where
  | bind | cache | tmpfs | secret | ssh
  deriving DecidableEq, Repr

def MountType.ofName (name : Bytes) : Option MountType :=
  if name = lit "bind" then some .bind
  else if name = lit "cache" then some .cache
  else if name = lit "tmpfs" then some .tmpfs
  else if name = lit "secret" then some .secret
  else if name = lit "ssh" then some .ssh
  else none

/-- `instructions.Mount`: the fields that are read here or checked by `parseMount`. -/
structure Mount where
  type : MountType
  from_ : Bytes
  source : Bytes
  target : Bytes
  cacheID : Bytes
  sharing : Bool
  mode : Bool
  uid : Bool
  gid : Bool
  deriving DecidableEq

def newMount : Mount := ⟨.bind, [], [], [], [], false, false, false, false⟩

/-- The words that `strconv.ParseBool` accepts. -/
def boolWords : List Bytes :=
  [lit "1", lit "t", lit "T", lit "TRUE", lit "true", lit "True",
    lit "0", lit "f", lit "F", lit "FALSE", lit "false", lit "False"]

/-- The function that `runMountGlobs` expands every value with. -/
def contextPath (word : Bytes) : Bytes := clean (Strings.trimPrefix word [slash])

section

variable (x : Reading)

/-- A field without a value. -/
def flagField (m : Mount) (key : Bytes) : Option Mount :=
  if key ∈ [lit "readonly", lit "ro", lit "readwrite", lit "rw"] then some m
  else if key = lit "required" ∧ (m.type = .secret ∨ m.type = .ssh) then some m
  else none

/-- A field that is not about the type, the stage or the source of a mount. -/
def otherField (m : Mount) (key value : Bytes) : Option Mount :=
  if key ∈ [lit "target", lit "dst", lit "destination"] then some { m with target := value }
  else if key ∈ [lit "readonly", lit "ro", lit "readwrite", lit "rw"] then
    if value ∈ boolWords then some m else none
  else if key = lit "required" then
    if (m.type = .secret ∨ m.type = .ssh) ∧ value ∈ boolWords then some m else none
  else if key = lit "size" then
    if m.type = .tmpfs ∧ x.ramInBytes value then some m else none
  else if key = lit "id" then some { m with cacheID := value }
  else if key = lit "sharing" then
    if Strings.toLower x.lowerUnicode value ∈ [lit "shared", lit "private", lit "locked"] then
      some { m with sharing := true }
    else none
  else if key = lit "mode" then
    if x.parseUint 8 value then some { m with mode := true } else none
  else if key = lit "uid" then
    if x.parseUint 10 value then some { m with uid := true } else none
  else if key = lit "gid" then
    if x.parseUint 10 value then some { m with gid := true } else none
  else if key = lit "env" then some m
  else none

/-- The loop of `parseMount`, for one field. -/
def mountField (m : Mount) (field : Bytes) : Option Mount :=
  match Strings.cut 61 field with
  | none => flagField m (Strings.toLower x.lowerUnicode field)
  | some (key, value) =>
      let key := Strings.toLower x.lowerUnicode key
      let value := contextPath value
      if key = lit "type" then
        (MountType.ofName (Strings.toLower x.lowerUnicode value)).map fun type =>
          { m with type := type }
      else if key = lit "from" then some { m with from_ := value }
      else if key = lit "source" ∨ key = lit "src" then some { m with source := value }
      else otherField x m key value

/-- What `parseMount` checks in the end. -/
def Mount.Valid (m : Mount) : Bool :=
  (m.type == .secret || m.type == .ssh || m.type == .cache || !(m.mode || m.uid || m.gid)) &&
    (m.type != .secret ||
      m.from_ == [] && !m.sharing && !(m.source == [] && m.target == [] && m.cacheID == []) &&
        (m.source == [] || m.cacheID == [])) &&
    (!m.sharing || m.type == .cache)

/-- `parseMount`, with `contextPath` as the expander. -/
def parseMount (val : Bytes) : Option Mount :=
  match Csv.fields val with
  | .error _ => none
  | .ok fields =>
      match fields.foldlM (mountField x) newMount with
      | none => none
      | some m => if m.Valid then some m else none

/-- The values of the flag `--mount`. -/
def mountValues (node : Node) : List Bytes :=
  (node.flags.takeWhile (· != lit "--")).filterMap fun a =>
    match Strings.cut 61 a with
    | some (name, value) => if name = lit "--mount" then some value else none
    | none => none

/-- Whether the source of a mount goes on the list. -/
def Mount.isContextBind (m : Mount) : Bool := m.type == .bind && m.source != [] && m.from_ == []

/-- `runMountGlobs`; `none` is an error of `Expand`. -/
def runMountGlobs (node : Node) : Option (List Bytes) :=
  if x.parsesRun node then
    ((mountValues node).mapM (parseMount x)).map fun mounts =>
      (mounts.filter Mount.isContextBind).map Mount.source
  else some []

/-! ## The list -/

inductive GlobsFailure where
  /-- `node.Next` is nil -/
  | nilNext
  | expand
  deriving DecidableEq

def Node.isCopyOrAdd (node : Node) : Bool :=
  Strings.equalFold node.value (lit "COPY") || Strings.equalFold node.value (lit "ADD")

def Node.isRun (node : Node) : Bool := Strings.equalFold node.value (lit "RUN")

/-- What a COPY or ADD adds to the list. -/
def copyGlobs (node : Node) : Except GlobsFailure (List Bytes) :=
  if node.isCopyOrAdd then
    match node.args with
    | [] => .error .nilNext
    | arg :: _ => .ok [arg]
  else .ok []

/-- What a RUN adds to the list. -/
def runGlobs (node : Node) : Except GlobsFailure (List Bytes) :=
  if node.isRun then
    match runMountGlobs x node with
    | none => .error .expand
    | some globs => .ok globs
  else .ok []

/-- The loop of `dockerfileAddedGlobs`. -/
def addGlobs : List Node → List Bytes → Except GlobsFailure (List Bytes)
  | [], addedGlobs => .ok addedGlobs
  | node :: nodes, addedGlobs =>
      match copyGlobs node with
      | .error e => .error e
      | .ok copied =>
          match runGlobs x node with
          | .error e => .error e
          | .ok mounted => addGlobs nodes (addedGlobs ++ copied ++ mounted)

/-- `dockerfileAddedGlobs`, from the children of the AST. -/
def dockerfileAddedGlobs (children : List Node) : Except GlobsFailure (List Bytes) :=
  addGlobs x children []

/-! ## What a build reads of its context -/

/-- Whether the instruction has the flag `--from`. -/
def Node.hasFrom (node : Node) : Bool :=
  node.flags.any fun a =>
    match Strings.cut 61 a with
    | some (name, _) => name == lit "--from"
    | none => a == lit "--from"

/-- `SourcePaths` of an instruction: all arguments but the last, without here-documents. -/
def sourcePaths (node : Node) : List Bytes :=
  node.args.dropLast.filter fun src => !x.isHeredoc src

/-- The keys and values of a mount flag; `src` is another word for `source`. -/
def mountFields (fields : List Bytes) : List (Bytes × Bytes) :=
  fields.filterMap fun field =>
    (Strings.cut 61 field).map fun pair =>
      let key := Strings.toLower x.lowerUnicode pair.1
      (if key = lit "src" then lit "source" else key, pair.2)

/-- The flag mounts a path of the context: its type is `bind`, given or not, and there is no
`from`.  Its source is what is given last, if anything is. -/
def BindsContext (val : Bytes) (source : Option Bytes) : Prop :=
  ∃ fields, Csv.fields val = .ok fields ∧
    (∀ type, lastWrite (mountFields x fields) (lit "type") = some type →
      type.map Strings.lowerByte = lit "bind") ∧
    lastWrite (mountFields x fields) (lit "from") = none ∧
    source = lastWrite (mountFields x fields) (lit "source")

/-- Two ways to write one path of the context, whose root is `/`. -/
def SamePath (p q : Bytes) : Prop := clean (slash :: p) = clean (slash :: q)

/-- Every path that the instructions read from the context is on the list, that of a mount in
some way of writing it.  A mount without a source is one of the whole context. -/
structure Complete (children : List Node) (globs : List Bytes) : Prop where
  copies : ∀ node ∈ children, node.isCopyOrAdd = true → node.hasFrom = false →
    ∀ src ∈ sourcePaths x node, src ∈ globs
  mounts : ∀ node ∈ children, node.isRun = true → ∀ val ∈ mountValues node, ∀ source,
    BindsContext x val source → ∃ glob ∈ globs, SamePath glob (source.getD [])

/-- What is on the list. -/
def Listed (children : List Node) (glob : Bytes) : Prop :=
  (∃ node ∈ children, node.isCopyOrAdd = true ∧ node.args.head? = some glob) ∨
    ∃ node ∈ children, node.isRun = true ∧ ∃ val ∈ mountValues node, ∃ m,
      parseMount x val = some m ∧ m.isContextBind = true ∧ glob = m.source

/-- What else has to be on the list: the sources after the first argument, and the whole context
for a mount without a source. -/
structure OthersListed (children : List Node) : Prop where
  copies : ∀ node ∈ children, node.isCopyOrAdd = true → node.hasFrom = false →
    ∀ src ∈ node.args.dropLast.tail, x.isHeredoc src = false → Listed x children src
  mounts : ∀ node ∈ children, node.isRun = true → ∀ val ∈ mountValues node,
    BindsContext x val none → ∃ glob, Listed x children glob ∧ SamePath glob dot

end

/-! ## Reading a mount -/

section

variable {x : Reading}

/-- The three fields that decide whether a mount binds the context. -/
structure SameBind (m m' : Mount) : Prop where
  type : m'.type = m.type
  from_ : m'.from_ = m.from_
  source : m'.source = m.source

/-- Whatever comes of a field, it is none of the three. -/
def KeepsBind (m : Mount) (o : Option Mount) : Prop := ∀ m', o = some m' → SameBind m m'

theorem KeepsBind.none (m : Mount) : KeepsBind m none := fun _ h => by cases h

variable {m m' : Mount} {fields : List Bytes} {val : Bytes} {node : Node} {children : List Node}

theorem KeepsBind.some (h : SameBind m m') : KeepsBind m (some m') := fun _ heq => by
  cases heq
  exact h

theorem KeepsBind.ite {a b : Option Mount} {P : Prop} [Decidable P] (ha : KeepsBind m a)
    (hb : KeepsBind m b) : KeepsBind m (if P then a else b) := by
  by_cases h : P
  · rwa [if_pos h]
  · rwa [if_neg h]

theorem flagField_keeps (m : Mount) (key : Bytes) : KeepsBind m (flagField m key) :=
  .ite (.some ⟨rfl, rfl, rfl⟩) (.ite (.some ⟨rfl, rfl, rfl⟩) (.none m))

theorem otherField_keeps (m : Mount) (key value : Bytes) :
    KeepsBind m (otherField x m key value) := by
  unfold otherField
  repeat' apply KeepsBind.ite
  all_goals first | exact KeepsBind.none m | exact KeepsBind.some ⟨rfl, rfl, rfl⟩

/-- The key of a field, `src` being `source`. -/
def fieldKey (x : Reading) (key : Bytes) : Bytes :=
  if Strings.toLower x.lowerUnicode key = lit "src" then lit "source"
  else Strings.toLower x.lowerUnicode key

/-- One more field decides about its own key. -/
theorem lastWrite_mountFields_concat (fields : List Bytes) (field wanted : Bytes) :
    lastWrite (mountFields x (fields ++ [field])) wanted =
      match Strings.cut 61 field with
      | none => lastWrite (mountFields x fields) wanted
      | some (key, value) =>
          if fieldKey x key = wanted then some value
          else lastWrite (mountFields x fields) wanted := by
  have happend : mountFields x (fields ++ [field]) = mountFields x fields ++
      mountFields x [field] :=
    List.filterMap_append
  rw [happend, lastWrite_append]
  unfold mountFields
  rw [List.filterMap_cons, List.filterMap_nil]
  cases Strings.cut 61 field with
  | none => rfl
  | some pair =>
      change (lastWrite [(fieldKey x pair.1, pair.2)] wanted).or _ = _
      rw [lastWrite_single]
      by_cases h : fieldKey x pair.1 = wanted
      · simp only [if_pos h]
        rfl
      · simp only [if_neg h]
        rfl

/-- What the fields make of the type, the stage and the source. -/
structure ReadFrom (x : Reading) (fields : List Bytes) (m : Mount) : Prop where
  type : match lastWrite (mountFields x fields) (lit "type") with
    | none => m.type = .bind
    | some type =>
        MountType.ofName (Strings.toLower x.lowerUnicode (contextPath type)) = some m.type
  from_ : m.from_ = (lastWrite (mountFields x fields) (lit "from")).elim [] contextPath
  source : m.source = (lastWrite (mountFields x fields) (lit "source")).elim [] contextPath

/-- A field about something else. -/
theorem ReadFrom.other {field : Bytes} (h : ReadFrom x fields m) (hsame : SameBind m m')
    (hlast : ∀ wanted ∈ [lit "type", lit "from", lit "source"],
      lastWrite (mountFields x (fields ++ [field])) wanted =
        lastWrite (mountFields x fields) wanted) :
    ReadFrom x (fields ++ [field]) m' := by
  obtain ⟨htype, hfrom, hsource⟩ := List.forall_mem_cons.mp hlast |>.imp_right fun hrest =>
    (List.forall_mem_cons.mp hrest).imp_right fun hrest => hrest _ List.mem_cons_self
  constructor
  · rw [htype, hsame.type]
    exact h.type
  · rw [hfrom, hsame.from_]
    exact h.from_
  · rw [hsource, hsame.source]
    exact h.source

theorem ReadFrom.concat {field : Bytes} (h : ReadFrom x fields m)
    (hfield : mountField x m field = some m') :
    ReadFrom x (fields ++ [field]) m' := by
  unfold mountField at hfield
  cases hcut : Strings.cut 61 field with
  | none =>
      rw [hcut] at hfield
      refine h.other (flagField_keeps m _ m' hfield) fun wanted _ => ?_
      rw [lastWrite_mountFields_concat, hcut]
  | some pair =>
      rw [hcut] at hfield
      dsimp only at hfield
      have hlast : ∀ wanted, lastWrite (mountFields x (fields ++ [field])) wanted =
          if fieldKey x pair.1 = wanted then some pair.2
          else lastWrite (mountFields x fields) wanted := fun wanted => by
        rw [lastWrite_mountFields_concat, hcut]
      by_cases htype : Strings.toLower x.lowerUnicode pair.1 = lit "type"
      · have hkey : fieldKey x pair.1 = lit "type" := by
          rw [fieldKey, htype, if_neg (by decide)]
        rw [if_pos htype] at hfield
        obtain ⟨type, hname, rfl⟩ := Option.map_eq_some_iff.mp hfield
        refine ⟨?_, ?_, ?_⟩
        · rw [hlast, hkey, if_pos rfl]
          exact hname
        · rw [hlast, hkey, if_neg (by decide)]
          exact h.from_
        · rw [hlast, hkey, if_neg (by decide)]
          exact h.source
      by_cases hfrom : Strings.toLower x.lowerUnicode pair.1 = lit "from"
      · have hkey : fieldKey x pair.1 = lit "from" := by
          rw [fieldKey, hfrom, if_neg (by decide)]
        rw [if_neg htype, if_pos hfrom] at hfield
        cases hfield
        refine ⟨?_, ?_, ?_⟩
        · rw [hlast, hkey, if_neg (by decide)]
          exact h.type
        · rw [hlast, hkey, if_pos rfl]
          rfl
        · rw [hlast, hkey, if_neg (by decide)]
          exact h.source
      by_cases hsource : Strings.toLower x.lowerUnicode pair.1 = lit "source" ∨
          Strings.toLower x.lowerUnicode pair.1 = lit "src"
      · have hkey : fieldKey x pair.1 = lit "source" := by
          rcases hsource with hsource | hsource
          · rw [fieldKey, hsource, if_neg (by decide)]
          · rw [fieldKey, if_pos hsource]
        rw [if_neg htype, if_neg hfrom, if_pos hsource] at hfield
        cases hfield
        refine ⟨?_, ?_, ?_⟩
        · rw [hlast, hkey, if_neg (by decide)]
          exact h.type
        · rw [hlast, hkey, if_neg (by decide)]
          exact h.from_
        · rw [hlast, hkey, if_pos rfl]
          rfl
      · rw [if_neg htype, if_neg hfrom, if_neg hsource] at hfield
        obtain ⟨hnot, hsrc⟩ := not_or.mp hsource
        have hkey : fieldKey x pair.1 = Strings.toLower x.lowerUnicode pair.1 := by
          rw [fieldKey, if_neg hsrc]
        refine h.other (otherField_keeps m _ _ m' hfield) fun wanted hwanted => ?_
        rw [hlast, hkey, if_neg]
        rintro rfl
        simp only [List.mem_cons, List.not_mem_nil, or_false] at hwanted
        exact hwanted.elim htype fun h => h.elim hfrom hnot

theorem readFrom_foldlM (h : fields.foldlM (mountField x) newMount = some m) :
    ReadFrom x fields m := by
  induction fields using List.reverseRecOn generalizing m with
  | nil =>
      cases h
      exact ⟨rfl, rfl, rfl⟩
  | append_singleton fields field ih =>
      obtain ⟨m₀, hm₀, hfield⟩ := foldlM_concat.mp h
      exact (ih hm₀).concat hfield

theorem parseMount_readFrom (h : parseMount x val = some m) :
    ∃ fields, Csv.fields val = .ok fields ∧ ReadFrom x fields m := by
  unfold parseMount at h
  split at h
  · cases h
  · rename_i fields hfields
    split at h
    · cases h
    · rename_i m' hfold
      split at h
      · cases h
        exact ⟨fields, hfields, readFrom_foldlM hfold⟩
      · cases h

/-! ### The word `bind` -/

theorem contextPath_of_name {word : Bytes} (h : Name word) : contextPath word = word := by
  have hnot : ¬ Strings.hasPrefix word [slash] = true := by
    intro hslash
    obtain ⟨rest, rfl⟩ := List.isPrefixOf_iff_prefix.mp hslash
    exact h.no_slash List.mem_cons_self
  have hclean := clean_render
    (cleanParts_of_names (List.forall_mem_singleton.mpr h) : CleanParts false [word])
  rw [render_names (List.cons_ne_nil _ _), joinSlash, List.intercalate_singleton] at hclean
  rw [contextPath, Strings.trimPrefix, if_neg hnot, hclean]

theorem lowerByte_ascii {b : UInt8} (h : Strings.lowerByte b < 0x80) : b < 0x80 := by
  unfold Strings.lowerByte at h
  split at h
  · rename_i hupper
    exact UInt8.lt_of_le_of_lt hupper.2 (by decide)
  · exact h

/-- In whatever case it is written, the word is that of the type. -/
theorem ofName_bind {word : Bytes} (h : word.map Strings.lowerByte = lit "bind") :
    MountType.ofName (Strings.toLower x.lowerUnicode (contextPath word)) = some .bind := by
  have hbytes : ∀ b ∈ word, Strings.lowerByte b ∈ lit "bind" := fun b hb =>
    h ▸ List.mem_map_of_mem hb
  have hlen : word.length = 4 := by
    rw [← List.length_map Strings.lowerByte, h]
    rfl
  have hname : Name word := by
    refine ⟨?_, ?_, ?_, fun hslash => absurd (hbytes slash hslash) (by decide)⟩
    · rintro rfl
      exact absurd hlen (by decide)
    · rintro rfl
      exact absurd hlen (by decide)
    · rintro rfl
      exact absurd hlen (by decide)
  have hascii : word.all (· < 0x80) = true := by
    rw [List.all_eq_true]
    intro b hb
    have hall : (lit "bind").all (· < 0x80) = true := by decide
    have hlow := of_decide_eq_true (List.all_eq_true.mp hall _ (hbytes b hb))
    exact decide_eq_true (lowerByte_ascii hlow)
  have hlower : Strings.toLower x.lowerUnicode word = lit "bind" := by
    rw [Strings.toLower, if_pos hascii]
    exact h
  rw [contextPath_of_name hname, hlower]
  rfl

theorem BindsContext.mount {source : Option Bytes} (h : BindsContext x val source)
    (hm : parseMount x val = some m) :
    m.type = .bind ∧ m.from_ = [] ∧ m.source = source.elim [] contextPath := by
  obtain ⟨fields, hfields, htype, hfrom, rfl⟩ := h
  obtain ⟨fields', hfields', hread⟩ := parseMount_readFrom hm
  rw [hfields] at hfields'
  cases hfields'
  refine ⟨?_, ?_, hread.source⟩
  · have hmount := hread.type
    cases hlast : lastWrite (mountFields x fields) (lit "type") with
    | none =>
        rw [hlast] at hmount
        exact hmount
    | some type =>
        rw [hlast] at hmount
        have hbind : MountType.ofName (Strings.toLower x.lowerUnicode (contextPath type)) = _ :=
          ofName_bind (htype type hlast)
        exact Option.some.inj (hmount.symm.trans hbind)
  · rw [hread.from_, hfrom]
    rfl

/-! ## What is on the list -/

theorem contextPath_ne_nil (word : Bytes) : contextPath word ≠ [] := by
  obtain ⟨parts, hparts, heq⟩ := clean_eq_render (Strings.trimPrefix word [slash])
  rw [contextPath, heq]
  exact render_ne_nil hparts

/-- What one instruction puts on the list. -/
def NodeLists (x : Reading) (node : Node) (glob : Bytes) : Prop :=
  (node.isCopyOrAdd = true ∧ node.args.head? = some glob) ∨
    (node.isRun = true ∧ ∃ val ∈ mountValues node, ∃ m,
      parseMount x val = some m ∧ m.isContextBind = true ∧ glob = m.source)

theorem mem_copyGlobs {copied : List Bytes} (h : copyGlobs node = .ok copied) (glob : Bytes) :
    glob ∈ copied ↔ node.isCopyOrAdd = true ∧ node.args.head? = some glob := by
  unfold copyGlobs at h
  split at h
  · rename_i hcopy
    split at h
    · cases h
    · rename_i arg rest hargs
      cases h
      rw [hargs, List.mem_singleton, List.head?_cons, Option.some_inj]
      exact ⟨fun heq => ⟨hcopy, heq.symm⟩, fun hboth => hboth.2.symm⟩
  · rename_i hcopy
    cases h
    exact ⟨fun hmem => absurd hmem List.not_mem_nil, fun hboth => absurd hboth.1 hcopy⟩

/-- A RUN puts the sources of its mounts on the list, each of which can be read. -/
theorem mem_runGlobs {mounted : List Bytes} (h : runGlobs x node = .ok mounted)
    (hparsed : node.isRun = true → x.parsesRun node = true) :
    (∀ glob, glob ∈ mounted ↔ node.isRun = true ∧ ∃ val ∈ mountValues node, ∃ m,
      parseMount x val = some m ∧ m.isContextBind = true ∧ glob = m.source) ∧
    (node.isRun = true → ∀ val ∈ mountValues node, ∃ m, parseMount x val = some m) := by
  unfold runGlobs at h
  split at h
  · rename_i hrun
    unfold runMountGlobs at h
    rw [if_pos (hparsed hrun)] at h
    cases hmapM : (mountValues node).mapM (parseMount x) with
    | none =>
        rw [hmapM] at h
        cases h
    | some mounts =>
        rw [hmapM] at h
        cases h
        obtain ⟨hmem, hall⟩ := mapM_eq_some hmapM
        refine ⟨fun glob => ?_, fun _ => hall⟩
        rw [List.mem_map]
        constructor
        · rintro ⟨m, hm, rfl⟩
          obtain ⟨hm, hbind⟩ := List.mem_filter.mp hm
          obtain ⟨val, hval, hparse⟩ := (hmem m).mp hm
          exact ⟨hrun, val, hval, m, hparse, hbind, rfl⟩
        · rintro ⟨_, val, hval, m, hparse, hbind, rfl⟩
          exact ⟨m, List.mem_filter.mpr ⟨(hmem m).mpr ⟨val, hval, hparse⟩, hbind⟩, rfl⟩
  · rename_i hrun
    cases h
    refine ⟨fun glob => ?_, fun h => absurd h hrun⟩
    exact ⟨fun hmem => absurd hmem List.not_mem_nil, fun hboth => absurd hboth.1 hrun⟩

/-- The instructions for which `instructions.Parse` has succeeded. -/
def Parsed (x : Reading) (children : List Node) : Prop :=
  ∀ node ∈ children, node.isRun = true → x.parsesRun node = true

theorem mem_addGlobs {added globs : List Bytes} (h : addGlobs x children added = .ok globs)
    (hparsed : Parsed x children) :
    (∀ glob, glob ∈ globs ↔ glob ∈ added ∨ ∃ node ∈ children, NodeLists x node glob) ∧
    ∀ node ∈ children, node.isRun = true → ∀ val ∈ mountValues node,
      ∃ m, parseMount x val = some m := by
  induction children generalizing added with
  | nil =>
      cases h
      exact ⟨fun glob => by simp, fun _ hnode => absurd hnode List.not_mem_nil⟩
  | cons node children ih =>
      obtain ⟨hnode, hchildren⟩ := List.forall_mem_cons.mp hparsed
      unfold addGlobs at h
      cases hcopied : copyGlobs node with
      | error e =>
          rw [hcopied] at h
          cases h
      | ok copied =>
          cases hmounted : runGlobs x node with
          | error e =>
              rw [hcopied, hmounted] at h
              cases h
          | ok mounted =>
              rw [hcopied, hmounted] at h
              obtain ⟨hmem, hall⟩ := ih h hchildren
              obtain ⟨hrun, hread⟩ := mem_runGlobs hmounted hnode
              refine ⟨fun glob => ?_, List.forall_mem_cons.mpr ⟨hread, hall⟩⟩
              rw [hmem, List.mem_append, List.mem_append, mem_copyGlobs hcopied, hrun,
                List.exists_mem_cons_iff, or_assoc, or_assoc]
              exact or_congr_right (or_assoc.symm)

theorem listed_iff {glob : Bytes} :
    Listed x children glob ↔ ∃ node ∈ children, NodeLists x node glob := by
  constructor
  · rintro (⟨node, hnode, hcopy⟩ | ⟨node, hnode, hrun⟩)
    · exact ⟨node, hnode, .inl hcopy⟩
    · exact ⟨node, hnode, .inr hrun⟩
  · rintro ⟨node, hnode, hcopy | hrun⟩
    · exact .inl ⟨node, hnode, hcopy⟩
    · exact .inr ⟨node, hnode, hrun⟩

/-- The list has what is listed, and nothing else. -/
theorem mem_dockerfileAddedGlobs {globs : List Bytes}
    (h : dockerfileAddedGlobs x children = .ok globs) (hparsed : Parsed x children) (glob : Bytes) :
    glob ∈ globs ↔ Listed x children glob := by
  rw [listed_iff, (mem_addGlobs h hparsed).1 glob]
  exact or_iff_right List.not_mem_nil

/-- The source of a mount is on the list if the mount names one. -/
theorem listed_source {source : Bytes} (hnode : node ∈ children) (hrun : node.isRun = true)
    (hval : val ∈ mountValues node) (hm : parseMount x val = some m)
    (hbinds : BindsContext x val (some source)) :
    Listed x children (contextPath source) := by
  obtain ⟨htype, hfrom, hsource⟩ := hbinds.mount hm
  refine .inr ⟨node, hnode, hrun, val, hval, m, hm, ?_, hsource.symm⟩
  have hne : m.source ≠ [] := hsource ▸ contextPath_ne_nil source
  simp only [Mount.isContextBind, htype, hfrom, Bool.and_eq_true, bne_iff_ne, beq_self_eq_true,
    and_true, true_and]
  exact hne

/-- What the mount's source is expanded to is another way to write it. -/
theorem samePath_contextPath (source : Bytes) : SamePath (contextPath source) source := by
  unfold SamePath contextPath Strings.trimPrefix
  rw [clean_slash_clean]
  split
  · rename_i hslash
    obtain ⟨rest, rfl⟩ := List.isPrefixOf_iff_prefix.mp hslash
    exact (clean_slash_slash rest).symm
  · rfl

/-! ## Completeness -/

/-- In particular nothing else has to be there if every COPY and ADD has one source and every
mount of the context names its own. -/
theorem othersListed_of_single
    (hcopies : ∀ node ∈ children, node.isCopyOrAdd = true → node.args.length ≤ 2)
    (hmounts : ∀ node ∈ children, node.isRun = true → ∀ val ∈ mountValues node,
      ¬ BindsContext x val none) :
    OthersListed x children := by
  refine ⟨fun node hnode hcopy _ src hsrc => ?_, fun node hnode hrun val hval hbinds =>
    (hmounts node hnode hrun val hval hbinds).elim⟩
  have hlen := List.length_pos_of_mem hsrc
  rw [List.length_tail, List.length_dropLast] at hlen
  have := hcopies node hnode hcopy
  omega

/-- The list has every path that is read from the context exactly if it happens to have the
sources that no instruction puts there: those after the first argument of a COPY or ADD, and
the whole context for a mount without a source. -/
theorem dockerfileAddedGlobs_complete_iff (x : Reading) (children : List Node) (globs : List Bytes)
    (hparsed : Parsed x children) (h : dockerfileAddedGlobs x children = .ok globs) :
    Complete x children globs ↔ OthersListed x children := by
  have hmem : ∀ glob, glob ∈ globs ↔ Listed x children glob := mem_dockerfileAddedGlobs h hparsed
  have hread := (mem_addGlobs h hparsed).2
  constructor
  · intro hcomplete
    refine ⟨fun node hnode hcopy hfrom src hsrc hdoc => ?_,
      fun node hnode hrun val hval hbinds => ?_⟩
    · refine (hmem src).mp (hcomplete.copies node hnode hcopy hfrom src ?_)
      exact List.mem_filter.mpr ⟨List.mem_of_mem_tail hsrc, by rw [hdoc]; rfl⟩
    · obtain ⟨glob, hglob, hroot⟩ := hcomplete.mounts node hnode hrun val hval none hbinds
      exact ⟨glob, (hmem glob).mp hglob, hroot⟩
  · intro hothers
    refine ⟨fun node hnode hcopy hfrom src hsrc => (hmem src).mpr ?_,
      fun node hnode hrun val hval source hbinds => ?_⟩
    · obtain ⟨hsrc, hdoc⟩ := List.mem_filter.mp hsrc
      cases hargs : node.args.dropLast with
      | nil =>
          rw [hargs] at hsrc
          exact absurd hsrc List.not_mem_nil
      | cons first rest =>
          rw [hargs] at hsrc
          rcases List.mem_cons.mp hsrc with rfl | hsrc
          · -- the first argument is there
            refine .inl ⟨node, hnode, hcopy, ?_⟩
            obtain ⟨tail, htail⟩ := node.args.dropLast_prefix
            rw [← htail, hargs]
            rfl
          · refine hothers.copies node hnode hcopy hfrom src (by rw [hargs]; exact hsrc) ?_
            simpa using hdoc
    · cases source with
      | none =>
          obtain ⟨glob, hglob, hroot⟩ := hothers.mounts node hnode hrun val hval hbinds
          exact ⟨glob, (hmem glob).mpr hglob, hroot⟩
      | some source =>
          obtain ⟨m, hm⟩ := hread node hnode hrun val hval
          exact ⟨_, (hmem _).mpr (listed_source hnode hrun hval hm hbinds),
            samePath_contextPath source⟩

end

/-! ## Two instructions -/

/-- A reading in which nothing is a here-document. -/
def plainReading : Reading := ⟨id, fun _ => false, fun _ => true, fun _ => true, fun _ _ => true⟩

/-- `COPY a /dst` -/
def copyOne : Node := ⟨lit "COPY", [lit "a", lit "/dst"], []⟩

/-- `RUN --mount=type=bind,source=/b/ make` -/
def runBind : Node := ⟨lit "RUN", [lit "make"], [lit "--mount=type=bind,source=/b/"]⟩

/-- `COPY a b /dst` -/
def copyTwo : Node := ⟨lit "COPY", [lit "a", lit "b", lit "/dst"], []⟩

theorem parsed_plain (children : List Node) : Parsed plainReading children :=
  fun _ _ _ => rfl

theorem complete_three :
    Complete plainReading [copyOne, runBind, copyOne] [lit "a", lit "b", lit "a"] := by
  refine (dockerfileAddedGlobs_complete_iff plainReading _ [lit "a", lit "b", lit "a"]
    (parsed_plain _) (by decide)).mpr (othersListed_of_single (by decide) ?_)
  have hvalues : ∀ node ∈ [copyOne, runBind, copyOne], node.isRun = true →
      ∀ val ∈ mountValues node, val = lit "type=bind,source=/b/" := by decide
  rintro node hnode hrun val hval ⟨fields, hfields, _, _, hsource⟩
  rw [hvalues node hnode hrun val hval] at hfields
  cases hfields
  exact absurd hsource (by decide)

/-- The second source is not on the list. -/
theorem second_source_missing :
    dockerfileAddedGlobs plainReading [copyTwo] = .ok [lit "a"] ∧
      ¬ Complete plainReading [copyTwo] [lit "a"] := by
  refine ⟨by decide, fun hcomplete => ?_⟩
  have hmem := hcomplete.copies copyTwo List.mem_cons_self (by decide) (by decide) (lit "b")
    (by decide)
  exact absurd hmem (by decide)

end BuilderShim.Build
