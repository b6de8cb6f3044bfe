/-
  Stream/Packet.lean --- the packets of the client and the filters over them
  (pkg/api/Builder.proto, pkg/stream/filter.go and the `Filter` of each proxy).
-/
import Mathlib.Data.List.AList
import BuilderShim.Foundation.Bytes

set_option autoImplicit false

namespace BuilderShim.Stream

/-- A Go map of strings. -/
abbrev Metadata : Type := AList (fun _ : Bytes => Bytes)

/-- `m[key]`: an absent key gives the empty string. -/
def Metadata.get (m : Metadata) (key : Bytes) : Bytes := (m.lookup key).getD []

structure BuildTransfer where
  id : Bytes
  data : Bytes
  complete : Bool
  metadata : Metadata

structure ImageTransfer where
  id : Bytes
  data : Bytes
  complete : Bool
  metadata : Metadata

/-- The message `Run` -/
structure Command where
  id : Bytes
  command : Bytes

/-- The `oneof` of a client packet -/
inductive PacketType where
  | signal (number : Int32)
  | command (c : Command)
  | buildTransfer (t : BuildTransfer)
  | imageTransfer (t : ImageTransfer)

structure ClientStream where
  buildId : Bytes
  packetType : Option PacketType

namespace ClientStream

def getImageTransfer (c : ClientStream) : Option ImageTransfer :=
  match c.packetType with
  | some (.imageTransfer t) => some t
  | _ => none

def getBuildTransfer (c : ClientStream) : Option BuildTransfer :=
  match c.packetType with
  | some (.buildTransfer t) => some t
  | _ => none

end ClientStream

/-! ## Filters -/

/-- The errors of a filter; a packet is taken if there is none. -/
inductive FilterErr where
  /-- `ErrIgnorePacket` -/
  | ignorePacket
  | other (code : Nat)
  deriving DecidableEq, Repr

abbrev FilterFn : Type := ClientStream → Option FilterErr

abbrev FilterByIDFn : Type := Bytes → FilterFn

def filterByBuildID : FilterByIDFn := fun id c =>
  if c.buildId = id then none else some .ignorePacket

theorem filterByBuildID_eq_none {id : Bytes} {c : ClientStream} :
    filterByBuildID id c = none ↔ c.buildId = id := by
  unfold filterByBuildID
  split
  · rename_i h
    exact ⟨fun _ => h, fun _ => rfl⟩
  · rename_i h
    exact ⟨(fun hne => nomatch hne), fun heq => (h heq).elim⟩

/-- A stage takes the packets of one kind whose metadata name it. -/
def filterByStage (metadata : ClientStream → Option Metadata) (name : Bytes) : FilterFn := fun c =>
  match metadata c with
  | some m => if m.get (lit "stage") = name then none else some .ignorePacket
  | none => some .ignorePacket

def imageMetadata (c : ClientStream) : Option Metadata := c.getImageTransfer.map (·.metadata)

def buildMetadata (c : ClientStream) : Option Metadata := c.getBuildTransfer.map (·.metadata)

/-- `ContentStoreProxy.Filter` -/
def contentStoreFilter : FilterFn := filterByStage imageMetadata (lit "content-store")

/-- `ResolverProxy.Filter` -/
def resolverFilter : FilterFn := filterByStage imageMetadata (lit "resolver")

/-- `ExporterProxy.Filter` -/
def exporterFilter : FilterFn := filterByStage buildMetadata (lit "exporter")

/-- `FSSyncProxy.Filter` -/
def fssyncFilter : FilterFn := filterByStage buildMetadata (lit "fssync")

/-- No packet is taken by two of the filters. -/
def DisjointFilters (filters : List FilterFn) : Prop :=
  filters.Pairwise fun f g => ∀ c, f c = none → g c ≠ none

theorem filterByStage_eq_none {metadata : ClientStream → Option Metadata} {name : Bytes}
    {c : ClientStream} :
    filterByStage metadata name c = none ↔
      ∃ m, metadata c = some m ∧ m.get (lit "stage") = name := by
  unfold filterByStage
  cases metadata c with
  | none => simp
  | some m =>
      by_cases hname : m.get (lit "stage") = name
      · simp [hname]
      · simp [hname]

/-- A packet is an image transfer or a build transfer, not both. -/
theorem metadata_exclusive {c : ClientStream} {m n : Metadata} (h : imageMetadata c = some m) :
    buildMetadata c ≠ some n := by
  unfold imageMetadata ClientStream.getImageTransfer at h
  unfold buildMetadata ClientStream.getBuildTransfer
  cases hp : c.packetType with
  | none => simp [hp] at h
  | some t =>
      cases t with
      | imageTransfer t => simp
      | _ => simp [hp] at h

/-- Stages with different names, or for different kinds of packets, do not meet. -/
theorem filterByStage_disjoint {name name' : Bytes} (hne : name ≠ name')
    {metadata : ClientStream → Option Metadata} (c : ClientStream)
    (h : filterByStage metadata name c = none) : filterByStage metadata name' c ≠ none := by
  intro h'
  obtain ⟨m, hm, hname⟩ := filterByStage_eq_none.mp h
  obtain ⟨m', hm', hname'⟩ := filterByStage_eq_none.mp h'
  rw [hm] at hm'
  cases hm'
  exact hne (hname.symm.trans hname')

theorem filterByStage_kinds {name name' : Bytes} (c : ClientStream)
    (h : filterByStage imageMetadata name c = none) :
    filterByStage buildMetadata name' c ≠ none := by
  intro h'
  obtain ⟨m, hm, _⟩ := filterByStage_eq_none.mp h
  obtain ⟨m', hm', _⟩ := filterByStage_eq_none.mp h'
  exact metadata_exclusive hm hm'

/-- The stages that transfer content. -/
def transferFilters : List FilterFn :=
  [contentStoreFilter, resolverFilter, exporterFilter, fssyncFilter]

theorem transferFilters_disjoint : DisjointFilters transferFilters := by
  unfold DisjointFilters transferFilters
  simp only [List.pairwise_cons, List.mem_cons, List.not_mem_nil, or_false, forall_eq_or_imp,
    forall_eq, IsEmpty.forall_iff, implies_true, List.Pairwise.nil, and_true]
  refine ⟨⟨?_, ?_, ?_⟩, ⟨?_, ?_⟩, ?_⟩
  · exact filterByStage_disjoint (by decide)
  · exact filterByStage_kinds
  · exact filterByStage_kinds
  · exact filterByStage_kinds
  · exact filterByStage_kinds
  · exact filterByStage_disjoint (by decide)

end BuilderShim.Stream
