/-
  Content/Info.lean --- the description of a blob as a packet (pkg/content/info.go,
  pkg/content/update.go).

  The fixed fields and the labels of an `Info` share one map of strings.  A label is
  filed under its key behind a prefix that no fixed field and no key that `Update`
  adds begins with; `Carries` says that a map describes an `Info` in this way.

  The times are formatted and parsed by package `time`, of which only that parsing
  inverts formatting is used.
-/
import BuilderShim.GoLib.Maps
import BuilderShim.GoLib.Strconv
import BuilderShim.GoLib.Strings
import BuilderShim.Stream.Packet

set_option autoImplicit false

namespace BuilderShim.Content

open BuilderShim.Maps
open BuilderShim.Stream
open BuilderShim.Strconv (NumError formatInt parseInt parseInt_formatInt)

/-- `time.Time`, with the layout `time.RFC3339`. -/
structure Clock where
  Time : Type
  /-- `time.Time{}` -/
  zero : Time
  format : Time → Bytes
  parse : Bytes → Option Time
  /-- The time is one of a whole second. -/
  WholeSeconds : Time → Prop
  parse_empty : parse [] = none
  parse_format : ∀ t, WholeSeconds t → parse (format t) = some t

/-- `content.Info` -/
structure Info (clock : Clock) where
  digest : Bytes
  size : Int64
  createdAt : clock.Time
  updatedAt : clock.Time
  labels : Metadata

/-- An `ImageTransfer` with its tag. -/
structure InfoTransfer extends ImageTransfer where
  tag : Bytes

inductive InfoError where
  | size (e : NumError)
  | time (value : Bytes)
  /-- the request failed -/
  | request (code : Nat)
  /-- the host answered with an error -/
  | host (msg : Bytes)
  deriving DecidableEq

variable {clock : Clock}

/-! ## `infoTransformer` -/

def labelPrefix : Bytes := lit "__label:"

def transformSize (metadata : Metadata) : Except InfoError Int64 :=
  match parseInt (metadata.get (lit "size")) with
  | .ok size => .ok size
  | .error e => .error (.size e)

/-- A timestamp under the given key. -/
def transformTimestamp (clock : Clock) (key : Bytes) (metadata : Metadata) :
    Except InfoError clock.Time :=
  let value := metadata.get key
  if value = [] then .ok clock.zero
  else
    match clock.parse value with
    | some t => .ok t
    | none => .error (.time value)

def transformCreatedTimestamp (clock : Clock) : Metadata → Except InfoError clock.Time :=
  transformTimestamp clock (lit "created_at")

def transformUpdatedTimestamp (clock : Clock) : Metadata → Except InfoError clock.Time :=
  transformTimestamp clock (lit "updated_at")

/-- The label that a key of the metadata is for. -/
def labelOf (k : Bytes) : Option Bytes :=
  if Strings.hasPrefix k labelPrefix then some (Strings.trimPrefix k labelPrefix) else none

def transformLabels (order : RangeOrder Bytes Bytes) (metadata : Metadata) : Metadata :=
  storeAll labelOf (order.entries metadata) ∅

def transformIntoContentInfo (order : RangeOrder Bytes Bytes) (it : InfoTransfer) :
    Except InfoError (Info clock) := do
  let size ← transformSize it.metadata
  let createdAt ← transformCreatedTimestamp clock it.metadata
  let updatedAt ← transformUpdatedTimestamp clock it.metadata
  return {
    digest := it.tag
    size := size
    createdAt := createdAt
    updatedAt := updatedAt
    labels := transformLabels order it.metadata }

/-- The metadata of the fixed fields. -/
def fixedMetadata (info : Info clock) : Metadata :=
  (((((∅ : Metadata).insert (lit "os") (lit "linux")).insert (lit "size")
    (formatInt info.size)).insert
    (lit "created_at") (clock.format info.createdAt)).insert
    (lit "updated_at") (clock.format info.updatedAt))

def transformFromContentInfo (order : RangeOrder Bytes Bytes) (info : Info clock) :
    InfoTransfer where
  id := []
  data := []
  complete := false
  tag := info.digest
  metadata := storeAll (fun k => some (labelPrefix ++ k)) (order.entries info.labels)
    (fixedMetadata info)

/-! ## `ContentStoreProxy.Info` and `ContentStoreProxy.Update` -/

/-- What becomes of a response. -/
def responseInfo (order : RangeOrder Bytes Bytes) (resp : InfoTransfer) :
    Except InfoError (Info clock) :=
  match resp.metadata.lookup (lit "error") with
  | some msg => .error (.host msg)
  | none => transformIntoContentInfo order resp

def info (order : RangeOrder Bytes Bytes) (request : InfoTransfer → Except InfoError InfoTransfer)
    (dgst : Bytes) : Except InfoError (Info clock) := do
  let metadata := (((∅ : Metadata).insert (lit "os") (lit "linux")).insert (lit "stage")
    (lit "content-store")).insert (lit "method")
      (lit "/containerd.services.content.v1.Content/Info")
  let resp ← request { id := [], data := [], complete := false, metadata := metadata, tag := dgst }
  responseInfo order resp

/-- The packet of `Update`. -/
def updatePacket (order : RangeOrder Bytes Bytes) (info : Info clock) (fieldpaths : List Bytes) :
    InfoTransfer :=
  let packet := transformFromContentInfo order info
  { packet with
    metadata := (((packet.metadata.insert (lit "os") (lit "linux")).insert (lit "stage")
      (lit "content-store")).insert (lit "method")
      (lit "/containerd.services.content.v1.Content/Update")).insert (lit "fieldpaths")
      (Strings.join (lit ",") fieldpaths) }

def update (order : RangeOrder Bytes Bytes) (request : InfoTransfer → Except InfoError InfoTransfer)
    (info : Info clock) (fieldpaths : List Bytes) : Except InfoError (Info clock) := do
  let resp ← request (updatePacket order info fieldpaths)
  responseInfo order resp

/-! ## Labels -/

theorem hasPrefix_iff {s start : Bytes} : Strings.hasPrefix s start = true ↔ start <+: s :=
  List.isPrefixOf_iff_prefix

theorem labelOf_eq_some {k label : Bytes} : labelOf k = some label ↔ k = labelPrefix ++ label := by
  unfold labelOf Strings.trimPrefix
  constructor
  · intro h
    split at h
    case isTrue hpre =>
      obtain ⟨rest, rfl⟩ := hasPrefix_iff.mp hpre
      rw [List.drop_left] at h
      cases h
      rfl
    case isFalse => cases h
  · rintro rfl
    have hpre : Strings.hasPrefix (labelPrefix ++ label) labelPrefix = true :=
      hasPrefix_iff.mpr (List.prefix_append _ _)
    rw [if_pos hpre, if_pos hpre, List.drop_left]

theorem labelOf_apart : Apart labelOf := by
  intro a b k ha hb
  rw [labelOf_eq_some.mp ha, labelOf_eq_some.mp hb]

theorem label_apart : Apart fun k : Bytes => some (labelPrefix ++ k) := by
  intro a b k ha hb
  have heq : labelPrefix ++ a = labelPrefix ++ b :=
    (Option.some.inj ha).trans (Option.some.inj hb).symm
  exact List.append_cancel_left heq

theorem label_ne {key : Bytes} (h : labelOf key = none) (label : Bytes) :
    labelPrefix ++ label ≠ key := fun heq => by
  rw [labelOf_eq_some.mpr heq.symm] at h
  cases h

/-! ## What a packet carries -/

/-- The map describes the `Info`. -/
structure Carries (info : Info clock) (metadata : Metadata) : Prop where
  size : metadata.lookup (lit "size") = some (formatInt info.size)
  createdAt : metadata.lookup (lit "created_at") = some (clock.format info.createdAt)
  updatedAt : metadata.lookup (lit "updated_at") = some (clock.format info.updatedAt)
  labels : ∀ k, metadata.lookup (labelPrefix ++ k) = info.labels.lookup k

/-- The keys of the fields. -/
def fieldKeys : List Bytes := [lit "size", lit "created_at", lit "updated_at"]

/-- A key that is none of a field and none of a label may be added. -/
theorem Carries.insert {info : Info clock} {metadata : Metadata} (h : Carries info metadata)
    (key : Bytes) (hfield : key ∉ fieldKeys) (hlabel : labelOf key = none) (value : Bytes) :
    Carries info (metadata.insert key value) := by
  have hkeep : ∀ k ∈ fieldKeys, (metadata.insert key value).lookup k = metadata.lookup k :=
    fun k hk => AList.lookup_insert_ne fun heq => hfield (heq ▸ hk)
  refine ⟨?_, ?_, ?_, fun k => ?_⟩
  · rw [hkeep _ (by decide)]
    exact h.size
  · rw [hkeep _ (by decide)]
    exact h.createdAt
  · rw [hkeep _ (by decide)]
    exact h.updatedAt
  · rw [AList.lookup_insert_ne (label_ne hlabel k)]
    exact h.labels k

theorem carries_transformFrom (order : RangeOrder Bytes Bytes) (info : Info clock) :
    Carries info (transformFromContentInfo order info).metadata := by
  have hfixed : ∀ key, labelOf key = none →
      (transformFromContentInfo order info).metadata.lookup key = (fixedMetadata info).lookup key :=
    fun key hkey => lookup_storeAll_none order info.labels _
      fun a ha => label_ne hkey a (Option.some.inj ha)
  refine ⟨?_, ?_, ?_, fun k => ?_⟩
  · rw [hfixed _ (by decide)]
    unfold fixedMetadata
    rw [AList.lookup_insert_ne (by decide), AList.lookup_insert_ne (by decide), AList.lookup_insert]
  · rw [hfixed _ (by decide)]
    unfold fixedMetadata
    rw [AList.lookup_insert_ne (by decide), AList.lookup_insert]
  · rw [hfixed _ (by decide)]
    unfold fixedMetadata
    rw [AList.lookup_insert]
  · have hlook := lookup_storeAll order info.labels (fixedMetadata info) label_apart
      (rfl : some (labelPrefix ++ k) = some (labelPrefix ++ k))
    have hnone : (fixedMetadata info).lookup (labelPrefix ++ k) = none := by
      unfold fixedMetadata
      rw [AList.lookup_insert_ne (label_ne (by decide) k),
        AList.lookup_insert_ne (label_ne (by decide) k),
        AList.lookup_insert_ne (label_ne (by decide) k),
        AList.lookup_insert_ne (label_ne (by decide) k)]
      exact AList.lookup_empty _
    rw [hnone, Option.or_none] at hlook
    exact hlook

theorem carries_updatePacket (order : RangeOrder Bytes Bytes) (info : Info clock)
    (fieldpaths : List Bytes) : Carries info (updatePacket order info fieldpaths).metadata := by
  have hos := (carries_transformFrom order info).insert (lit "os") (by decide) (by decide)
    (lit "linux")
  have hstage := hos.insert (lit "stage") (by decide) (by decide) (lit "content-store")
  have hmethod := hstage.insert (lit "method") (by decide) (by decide)
    (lit "/containerd.services.content.v1.Content/Update")
  exact hmethod.insert (lit "fieldpaths") (by decide) (by decide) _

/-! ## The round trip -/

/-- The packet is turned into the same `Info` again. -/
def Survives (order : RangeOrder Bytes Bytes) (info : Info clock) (packet : InfoTransfer) : Prop :=
  ∃ info' : Info clock, transformIntoContentInfo order packet = .ok info' ∧
    info'.digest = info.digest ∧ info'.size = info.size ∧ info'.createdAt = info.createdAt ∧
    info'.updatedAt = info.updatedAt ∧ ∀ k, info'.labels.lookup k = info.labels.lookup k

theorem get_eq {metadata : Metadata} {key value : Bytes} (h : metadata.lookup key = some value) :
    metadata.get key = value := by
  unfold Metadata.get
  rw [h]
  rfl

theorem transformTimestamp_format {metadata : Metadata} {key : Bytes} {t : clock.Time}
    (h : metadata.lookup key = some (clock.format t)) (ht : clock.WholeSeconds t) :
    transformTimestamp clock key metadata = .ok t := by
  have hparse := clock.parse_format t ht
  have hne : clock.format t ≠ [] := fun hnil => by
    rw [hnil, clock.parse_empty] at hparse
    cases hparse
  unfold transformTimestamp
  dsimp only
  rw [get_eq h, if_neg hne, hparse]

theorem Carries.survives {info : Info clock} {packet : InfoTransfer}
    (h : Carries info packet.metadata) (htag : packet.tag = info.digest)
    (order : RangeOrder Bytes Bytes) (hcreated : clock.WholeSeconds info.createdAt)
    (hupdated : clock.WholeSeconds info.updatedAt) : Survives order info packet := by
  have hsize : transformSize packet.metadata = .ok info.size := by
    unfold transformSize
    rw [get_eq h.size, parseInt_formatInt]
  have hcreatedAt : transformCreatedTimestamp clock packet.metadata = .ok info.createdAt :=
    transformTimestamp_format h.createdAt hcreated
  have hupdatedAt : transformUpdatedTimestamp clock packet.metadata = .ok info.updatedAt :=
    transformTimestamp_format h.updatedAt hupdated
  refine ⟨⟨packet.tag, info.size, info.createdAt, info.updatedAt,
    transformLabels order packet.metadata⟩, ?_, htag, rfl, rfl, rfl, fun k => ?_⟩
  · unfold transformIntoContentInfo
    rw [hsize, hcreatedAt, hupdatedAt]
    rfl
  · have hlook := lookup_storeAll order packet.metadata ∅ labelOf_apart
      (labelOf_eq_some.mpr (rfl : labelPrefix ++ k = labelPrefix ++ k))
    rw [AList.lookup_empty, Option.or_none, h.labels] at hlook
    exact hlook

/-- An `Info` comes back from the packet it was made a packet of, and from the one that
`Update` sends. -/
theorem contentInfo_survives (order order' : RangeOrder Bytes Bytes) (info : Info clock)
    (fieldpaths : List Bytes) (hcreated : clock.WholeSeconds info.createdAt)
    (hupdated : clock.WholeSeconds info.updatedAt) :
    Survives order' info (transformFromContentInfo order info) ∧
      Survives order' info (updatePacket order info fieldpaths) :=
  ⟨(carries_transformFrom order info).survives rfl order' hcreated hupdated,
    (carries_updatePacket order info fieldpaths).survives rfl order' hcreated hupdated⟩

/-- Times that are written down as they are. -/
def plainClock : Clock where
  Time := Bytes
  zero := []
  format t := t
  parse s := if s = [] then none else some s
  WholeSeconds t := t ≠ []
  parse_empty := rfl
  parse_format _ ht := if_neg ht

/-- A blob with a label that is named like a field, and one that is named like a label. -/
def labelled : Info plainClock where
  digest := lit "sha256:0"
  size := -1
  createdAt := lit "2026-01-02T03:04:05Z"
  updatedAt := lit "2026-01-02T03:04:05Z"
  labels := ((∅ : Metadata).insert (lit "size") (lit "7")).insert (lit "__label:a") (lit "b")

theorem labelled_survives :
    Survives .stored labelled (transformFromContentInfo .stored labelled) ∧
      Survives .stored labelled (updatePacket .stored labelled [lit "size"]) :=
  contentInfo_survives .stored .stored labelled [lit "size"]
    (show lit "2026-01-02T03:04:05Z" ≠ [] by decide)
      (show lit "2026-01-02T03:04:05Z" ≠ [] by decide)

end BuilderShim.Content
