/-
  Prefetch/Cache.lean --- the chunk cache of the prefetcher (pkg/prefetch/cache.go).

  Every function of the cache runs under its mutex, so each is one step here.
  The order in which Go iterates over a map is an argument (`MapOrder`), and so is
  the time a chunk is stamped with.

  `Holds Good` says that every chunk is filed under its own index and that `Good`
  is true of its bytes; every operation keeps it.
-/
import Mathlib.Data.List.AList
import BuilderShim.Foundation.Bytes

set_option autoImplicit false

namespace BuilderShim.Prefetch

/-- `chunk`.  The first `size` bytes of its buffer are `data`; the rest of the buffer
is never read. -/
structure Chunk where
  index : Int64
  data : Bytes
  lastUsed : Nat
  deriving DecidableEq, Repr

def Chunk.size (ch : Chunk) : Nat := ch.data.length

/-- `map[int64]*chunk` -/
abbrev ChunkMap : Type := AList fun _ : Int64 => Chunk

/-- An order in which Go may iterate over a map. -/
structure MapOrder where
  keys : ChunkMap → List Int64
  perm : ∀ m, (keys m).Perm m.keys

/-- The order in which the entries are stored. -/
def MapOrder.stored : MapOrder := ⟨AList.keys, fun _ => List.Perm.refl _⟩

/-- The values of the map in that order. -/
def MapOrder.values (order : MapOrder) (m : ChunkMap) : List Chunk :=
  (order.keys m).filterMap m.lookup

/-- The keys and values of the map in that order. -/
def MapOrder.entries (order : MapOrder) (m : ChunkMap) : List (Int64 × Chunk) :=
  (order.keys m).filterMap fun idx => (m.lookup idx).map (Prod.mk idx)

/-- `intervalNode`, or nil -/
inductive IntervalTree where
  | nil
  | node (start stop : Int64) (chunks : ChunkMap) (left right : IntervalTree) (max : Int64)

namespace IntervalTree

/-- `insertInterval`; where there is no node, `insertChild` and its callers make one. -/
def insertInterval (start stop : Int64) (ch : Chunk) : IntervalTree → IntervalTree
  | .nil => .node start stop (AList.singleton ch.index ch) .nil .nil stop
  | .node start' stop' chunks left right max =>
      let max' := if stop > max then stop else max
      let chunks' := if ¬(stop < start' ∨ start > stop') then chunks.insert ch.index ch else chunks
      if start ≤ start' then
        .node start' stop' chunks' (insertInterval start stop ch left) right max'
      else
        .node start' stop' chunks' left (insertInterval start stop ch right) max'

/-- One round of `rebuildIntervalTree`, with the key a chunk is filed under: the first one
makes the root. -/
def reinsert (tree : IntervalTree) (idx : Int64) (ch : Chunk) : IntervalTree :=
  match tree with
  | .nil => .node idx idx (AList.singleton idx ch) .nil .nil idx
  | .node .. => tree.insertInterval idx idx ch

end IntervalTree

/-- `chunkCache` -/
structure ChunkCache where
  intervalTree : IntervalTree
  chunkMap : ChunkMap
  maxCacheSize : Nat
  evictCount : Nat
  minIndex : Int64

/-- `newChunkCache` -/
def newChunkCache : ChunkCache where
  intervalTree := .nil
  chunkMap := ∅
  maxCacheSize := 1024
  evictCount := 1024 / 10
  minIndex := 0

namespace ChunkCache

/-- `len(c.chunkMap)` -/
def length (c : ChunkCache) : Nat := c.chunkMap.entries.length

def hasChunk (c : ChunkCache) (index : Int64) : Bool := (c.chunkMap.lookup index).isSome

/-- `getChunk`: the chunk, now last used at `now`. -/
def getChunk (c : ChunkCache) (index : Int64) (now : Nat) : Option Chunk × ChunkCache :=
  match c.chunkMap.lookup index with
  | none => (none, c)
  | some ch =>
      (some ch, { c with chunkMap := c.chunkMap.insert index { ch with lastUsed := now } })

/-- Delete the given keys. -/
def delete (keys : List Int64) (m : ChunkMap) : ChunkMap := keys.foldl (fun m k => m.erase k) m

def rebuildIntervalTree (order : MapOrder) (c : ChunkCache) : ChunkCache :=
  { c with
    intervalTree :=
      (order.entries c.chunkMap).foldl (fun tree e => tree.reinsert e.1 e.2) .nil }

/-- One round of the insertion sort of `evictOldest`: `key` goes behind everything that
was not used after it. -/
def insertByUse (key : Chunk) : List Chunk → List Chunk
  | [] => [key]
  | ch :: chunks =>
      if ch.lastUsed > key.lastUsed then key :: ch :: chunks else ch :: insertByUse key chunks

def sortByUse (chunks : List Chunk) : List Chunk :=
  chunks.foldl (fun sorted key => insertByUse key sorted) []

/-- `evictOldest`.  The quotient of the two lengths is below one half, as floating point
numbers too, exactly when twice the one is below the other. -/
def evictOldest (order : MapOrder) (c : ChunkCache) : ChunkCache :=
  if c.length + c.evictCount ≤ c.maxCacheSize then c
  else
    let chunks := sortByUse (order.values c.chunkMap)
    let evicted := (chunks.take c.evictCount).map Chunk.index
    let c := { c with chunkMap := delete evicted c.chunkMap }
    if 2 * c.length < c.maxCacheSize then c.rebuildIntervalTree order else c

def addChunk (order : MapOrder) (now : Nat) (ch : Chunk) (c : ChunkCache) : ChunkCache :=
  if ch.index < c.minIndex then c
  else
    let ch := { ch with lastUsed := now }
    let c :=
      { c with
        chunkMap := c.chunkMap.insert ch.index ch
        intervalTree := c.intervalTree.insertInterval ch.index ch.index ch }
    if c.length > c.maxCacheSize then c.evictOldest order else c

def evictBefore (minIdx : Int64) (c : ChunkCache) : ChunkCache :=
  if minIdx ≤ c.minIndex then c
  else
    { c with
      minIndex := minIdx
      chunkMap := delete (c.chunkMap.keys.filter fun idx => decide (idx < minIdx)) c.chunkMap }

def clear (c : ChunkCache) : ChunkCache := { c with chunkMap := ∅, intervalTree := .nil }

/-! ## What the operations keep -/

theorem lookup_delete {keys : List Int64} {m : ChunkMap} {k : Int64} {ch : Chunk}
    (h : (delete keys m).lookup k = some ch) : m.lookup k = some ch := by
  induction keys generalizing m with
  | nil => exact h
  | cons key keys ih =>
      have hk : (m.erase key).lookup k = some ch := ih h
      by_cases hkey : k = key
      · subst hkey
        rw [AList.lookup_erase] at hk
        cases hk
      · rwa [AList.lookup_erase_ne hkey] at hk

/-- Every chunk is filed under its own index, and `Good` is true of its bytes. -/
def Holds (Good : Int64 → Bytes → Prop) (c : ChunkCache) : Prop :=
  ∀ k ch, c.chunkMap.lookup k = some ch → ch.index = k ∧ Good k ch.data

variable {Good : Int64 → Bytes → Prop} {c : ChunkCache}

theorem holds_new : Holds Good newChunkCache := by
  intro k ch h
  have hnone : (∅ : ChunkMap).lookup k = none := AList.lookup_empty k
  rw [show newChunkCache.chunkMap = ∅ from rfl, hnone] at h
  cases h

theorem Holds.insert (ch : Chunk) (hc : Holds Good c) (hch : Good ch.index ch.data)
    {k : Int64} {ch' : Chunk} (h : (c.chunkMap.insert ch.index ch).lookup k = some ch') :
    ch'.index = k ∧ Good k ch'.data := by
  by_cases hk : k = ch.index
  · subst hk
    rw [AList.lookup_insert] at h
    cases h
    exact ⟨rfl, hch⟩
  · rw [AList.lookup_insert_ne hk] at h
    exact hc k ch' h

theorem Holds.getChunk (hc : Holds Good c) (index : Int64) (now : Nat) :
    Holds Good (c.getChunk index now).2 ∧
      ∀ ch ∈ (c.getChunk index now).1, ch.index = index ∧ Good index ch.data := by
  unfold ChunkCache.getChunk
  cases hl : c.chunkMap.lookup index with
  | none => exact ⟨hc, fun ch h => by cases h⟩
  | some ch =>
      obtain ⟨hi, hg⟩ := hc index ch hl
      refine ⟨fun k ch' h => ?_, fun ch' h => ?_⟩
      · subst hi
        exact Holds.insert { ch with lastUsed := now } hc hg h
      · cases h
        exact ⟨hi, hg⟩

theorem Holds.evictOldest (hc : Holds Good c) (order : MapOrder) :
    Holds Good (c.evictOldest order) := by
  unfold ChunkCache.evictOldest
  split
  · exact hc
  · dsimp only
    split
    · exact fun k ch h => hc k ch (lookup_delete h)
    · exact fun k ch h => hc k ch (lookup_delete h)

theorem Holds.addChunk (hc : Holds Good c) (order : MapOrder) (now : Nat) {ch : Chunk}
    (hch : Good ch.index ch.data) : Holds Good (c.addChunk order now ch) := by
  unfold ChunkCache.addChunk
  split
  · exact hc
  · have hadded : Holds Good
        { c with
          chunkMap := c.chunkMap.insert ch.index { ch with lastUsed := now }
          intervalTree := c.intervalTree.insertInterval ch.index ch.index
            { ch with lastUsed := now } } :=
      fun k ch' h => Holds.insert (c := c) { ch with lastUsed := now } hc hch h
    dsimp only
    split
    · exact hadded.evictOldest order
    · exact hadded

theorem Holds.evictBefore (hc : Holds Good c) (minIdx : Int64) :
    Holds Good (c.evictBefore minIdx) := by
  unfold ChunkCache.evictBefore
  split
  · exact hc
  · exact fun k ch h => hc k ch (lookup_delete h)

theorem holds_clear (c : ChunkCache) : Holds Good c.clear := by
  intro k ch h
  have hnone : (∅ : ChunkMap).lookup k = none := AList.lookup_empty k
  rw [show c.clear.chunkMap = ∅ from rfl, hnone] at h
  cases h

end ChunkCache

end BuilderShim.Prefetch
