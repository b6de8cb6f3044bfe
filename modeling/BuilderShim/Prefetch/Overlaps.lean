/-
  Prefetch/Overlaps.lean --- the interval tree of the chunk cache against its map.

  `findOverlappingChunks` answers from the interval tree, everything else from the
  map.  The meaning of the tree is the list of its chunks, left to right: inserting
  a chunk adds it to that list, and every other chunk with its index is replaced by
  it.  Nothing but `clear` takes a chunk off the list again, so the list always has
  the chunks of the map, and it is the list of these exactly as long as nothing has
  left the map and no index was added a second time.
-/
import Mathlib.Data.List.Induction
import BuilderShim.Prefetch.Cache

set_option autoImplicit false

namespace BuilderShim.Prefetch

/-- What makes a chunk: a pointer to it stays the same when it is used. -/
def Chunk.contents (ch : Chunk) : Int64 × Bytes := (ch.index, ch.data)

def Chunk.within (start stop : Int64) (ch : Chunk) : Bool := ch.index ≥ start && ch.index ≤ stop

/-- The chunks of a map. -/
def chunksOf (m : ChunkMap) : List Chunk := m.entries.map Sigma.snd

namespace IntervalTree

/-- `findOverlapsRecursive` -/
def findOverlaps (order : MapOrder) (start stop : Int64) : IntervalTree → List Chunk
  | .nil => []
  | .node start' stop' chunks left right max =>
      if start > max then []
      else
        findOverlaps order start stop left ++
          (if ¬(stop < start' ∨ start > stop') then
            (order.values chunks).filter (Chunk.within start stop) else []) ++
          (if stop ≥ start' then findOverlaps order start stop right else [])

/-- The chunks of the tree, left to right. -/
def items : IntervalTree → List Chunk
  | .nil => []
  | .node _ _ chunks left right _ => items left ++ chunksOf chunks ++ items right

/-- Every node holds one chunk, under its index; smaller and equal ones are to the left, and
no chunk is above `max`. -/
def Sorted : IntervalTree → Prop
  | .nil => True
  | .node start stop chunks left right max =>
      stop = start ∧ start ≤ max ∧ (∃ ch, chunks = AList.singleton start ch ∧ ch.index = start) ∧
        Sorted left ∧ Sorted right ∧ (∀ ch ∈ left.items, ch.index ≤ start) ∧
        ∀ ch ∈ right.items, start < ch.index ∧ ch.index ≤ max

end IntervalTree

/-- `findOverlappingChunks` -/
def ChunkCache.findOverlappingChunks (order : MapOrder) (start stop : Int64) (c : ChunkCache) :
    List Chunk :=
  c.intervalTree.findOverlaps order start stop

/-! ## Searching the tree -/

theorem chunksOf_singleton (k : Int64) (ch : Chunk) : chunksOf (AList.singleton k ch) = [ch] := rfl

theorem values_singleton (order : MapOrder) (k : Int64) (ch : Chunk) :
    order.values (AList.singleton k ch) = [ch] := by
  have hkeys : order.keys (AList.singleton k ch) = [k] :=
    List.perm_singleton.mp (order.perm (AList.singleton k ch))
  have hlook : (AList.singleton k ch : ChunkMap).lookup k = some ch := List.dlookup_cons_eq _ _ _
  unfold MapOrder.values
  rw [hkeys, List.filterMap_cons, hlook]
  rfl

variable {t : IntervalTree}

/-- On a sorted tree the search skips nothing that overlaps. -/
theorem IntervalTree.Sorted.findOverlaps_eq (h : t.Sorted) (order : MapOrder) (start stop : Int64) :
    t.findOverlaps order start stop = t.items.filter (Chunk.within start stop) := by
  induction t with
  | nil => rfl
  | node s e chunks left right max ihl ihr =>
      obtain ⟨rfl, hmax, ⟨ch, rfl, hch⟩, hl, hr, hleft, hright⟩ := h
      unfold findOverlaps items
      rw [values_singleton, chunksOf_singleton, ihl hl, ihr hr, List.filter_append,
        List.filter_append]
      split
      · -- everything is below the range
        rename_i hstart
        have hnone : ∀ c : Chunk, c.index ≤ max → ¬ c.within start stop = true := by
          intro c hc hin
          simp only [Chunk.within, Bool.and_eq_true, decide_eq_true_eq] at hin
          grind
        rw [List.filter_eq_nil_iff.mpr, List.filter_eq_nil_iff.mpr, List.filter_eq_nil_iff.mpr]
        · rfl
        · exact fun c hc => hnone c (hright c hc).2
        · intro c hc
          rw [List.mem_singleton.mp hc]
          exact hnone ch (hch ▸ hmax)
        · exact fun c hc => hnone c (Int64.le_trans (hleft c hc) hmax)
      · congr 1
        · congr 1
          by_cases hin : ch.within start stop = true
          · rw [if_pos]
            simp only [Chunk.within, Bool.and_eq_true, decide_eq_true_eq] at hin
            grind
          · rw [List.filter_eq_nil_iff.mpr fun c hc => by rwa [List.mem_singleton.mp hc]]
            split <;> rfl
        · split
          · rfl
          · rename_i hstop
            rw [List.filter_eq_nil_iff.mpr]
            intro c hc hin
            simp only [Chunk.within, Bool.and_eq_true, decide_eq_true_eq] at hin
            have hlt := (hright c hc).1
            grind

/-! ## Inserting into the tree -/

/-- The chunk that takes the place of another, if it has its index. -/
def Chunk.replaced (ch : Chunk) (c : Chunk) : Chunk := if c.index = ch.index then ch else c

theorem replaced_index (ch c : Chunk) : (ch.replaced c).index = c.index := by
  unfold Chunk.replaced
  split
  · rename_i h
    exact h.symm
  · rfl

theorem map_replaced_eq {ch : Chunk} {l : List Chunk} (h : ∀ c ∈ l, c.index ≠ ch.index) :
    l.map ch.replaced = l := by
  refine (List.map_congr_left fun c hc => ?_).trans (List.map_id l)
  exact if_neg (h c hc)

/-- What inserting a chunk does to the list of chunks. -/
theorem items_insertInterval (h : t.Sorted) (ch : Chunk) :
    (t.insertInterval ch.index ch.index ch).items.Perm (ch :: t.items.map ch.replaced) := by
  induction t with
  | nil => exact List.Perm.refl _
  | node s e chunks left right max ihl ihr =>
      obtain ⟨rfl, hmax, ⟨c₀, rfl, hc₀⟩, hl, hr, hleft, hright⟩ := h
      unfold IntervalTree.insertInterval
      dsimp only
      split
      · rename_i hle
        have hsame : right.items.map ch.replaced = right.items :=
          map_replaced_eq fun c hc => by
            have := (hright c hc).1
            grind
        have hmid : chunksOf (if ¬(ch.index < e ∨ ch.index > e) then
            (AList.singleton e c₀).insert ch.index ch else AList.singleton e c₀) =
            [ch.replaced c₀] := by
          by_cases heq : ch.index = e
          · rw [if_pos (by grind), heq, AList.insert_singleton_eq, chunksOf_singleton,
              Chunk.replaced, if_pos (hc₀.trans heq.symm)]
          · rw [if_neg (by grind), chunksOf_singleton, Chunk.replaced,
              if_neg fun h => heq (h.symm.trans hc₀)]
        simp only [IntervalTree.items, hmid, chunksOf_singleton, List.map_append, hsame,
          List.map_singleton]
        exact ((ihl hl).append_right _).append_right _
      · rename_i hgt
        have hsame : left.items.map ch.replaced = left.items :=
          map_replaced_eq fun c hc => by
            have := hleft c hc
            grind
        have hmid : chunksOf (if ¬(ch.index < e ∨ ch.index > e) then
            (AList.singleton e c₀).insert ch.index ch else AList.singleton e c₀) = [c₀] := by
          rw [if_neg (by grind), chunksOf_singleton]
        have hkeep : ch.replaced c₀ = c₀ := if_neg (by grind)
        simp only [IntervalTree.items, hmid, chunksOf_singleton, List.map_append, hsame,
          List.map_singleton, hkeep]
        exact ((ihr hr).append_left _).trans List.perm_middle

theorem index_of_mem_insert (h : t.Sorted) {ch c : Chunk}
    (hc : c ∈ (t.insertInterval ch.index ch.index ch).items) :
    c.index = ch.index ∨ ∃ c' ∈ t.items, c'.index = c.index := by
  rcases List.mem_cons.mp ((items_insertInterval h ch).mem_iff.mp hc) with rfl | hc
  · exact .inl rfl
  · obtain ⟨c', hc', rfl⟩ := List.mem_map.mp hc
    exact .inr ⟨c', hc', (replaced_index ch c').symm⟩

theorem IntervalTree.Sorted.insertInterval (h : t.Sorted) (ch : Chunk) :
    (t.insertInterval ch.index ch.index ch).Sorted := by
  induction t with
  | nil =>
      refine ⟨rfl, Int64.le_refl _, ⟨ch, rfl, rfl⟩, trivial, trivial, ?_, ?_⟩
      · exact fun _ hc => absurd hc List.not_mem_nil
      · exact fun _ hc => absurd hc List.not_mem_nil
  | node s e chunks left right max ihl ihr =>
      obtain ⟨rfl, hmax, ⟨c₀, rfl, hc₀⟩, hl, hr, hleft, hright⟩ := h
      have hmax' : e ≤ (if ch.index > max then ch.index else max) := by grind
      have hchunk : ∃ c : Chunk, (if ¬(ch.index < e ∨ ch.index > e) then
          (AList.singleton e c₀).insert ch.index ch else AList.singleton e c₀ : ChunkMap) =
          AList.singleton e c ∧ c.index = e := by
        by_cases heq : ch.index = e
        · rw [if_pos (by grind), heq, AList.insert_singleton_eq]
          exact ⟨ch, rfl, heq⟩
        · rw [if_neg (by grind)]
          exact ⟨c₀, rfl, hc₀⟩
      unfold IntervalTree.insertInterval
      dsimp only
      split
      · refine ⟨rfl, hmax', hchunk, ihl hl, hr, fun c hc => ?_, fun c hc => ?_⟩
        · rcases index_of_mem_insert hl hc with hidx | ⟨c', hc', hidx⟩
          · grind
          · rw [← hidx]
            exact hleft c' hc'
        · have := hright c hc
          grind
      · refine ⟨rfl, hmax', hchunk, hl, ihr hr, hleft, fun c hc => ?_⟩
        rcases index_of_mem_insert hr hc with hidx | ⟨c', hc', hidx⟩
        · grind
        · have := hright c' hc'
          grind

/-! ## The map -/

namespace ChunkCache

theorem entries_erase_sublist (m : ChunkMap) (k : Int64) :
    (m.erase k).entries.Sublist m.entries := List.kerase_sublist k m.entries

theorem entries_delete_sublist (keys : List Int64) (m : ChunkMap) :
    (delete keys m).entries.Sublist m.entries := by
  induction keys generalizing m with
  | nil => exact List.Sublist.refl _
  | cons k keys ih => exact (ih (m.erase k)).trans (entries_erase_sublist m k)

theorem length_erase_le (m : ChunkMap) (k : Int64) :
    m.entries.length ≤ (m.erase k).entries.length + 1 := by
  by_cases hk : k ∈ m
  · obtain ⟨v, before, after, _, hm, herase⟩ := List.exists_of_kerase (AList.mem_keys.mp hk)
    have hentries : (m.erase k).entries = before ++ after := herase
    rw [hentries, hm]
    simp only [List.length_append, List.length_cons]
    omega
  · have hentries : (m.erase k).entries = m.entries :=
      List.kerase_of_notMem_keys fun h => hk (AList.mem_keys.mpr h)
    rw [hentries]
    omega

/-- Deleting takes out one entry for a key, at most. -/
theorem length_delete_le (keys : List Int64) (m : ChunkMap) :
    m.entries.length ≤ (delete keys m).entries.length + keys.length := by
  induction keys generalizing m with
  | nil => exact Nat.le_refl _
  | cons k keys ih =>
      have hfirst := length_erase_le m k
      have hrest := ih (m.erase k)
      rw [List.length_cons]
      exact Nat.le_trans hfirst (by
        have : delete (k :: keys) m = delete keys (m.erase k) := rfl
        rw [this]
        omega)

variable {k : Int64} {m : ChunkMap}

theorem lookup_delete_mem {keys : List Int64} (hk : k ∈ keys) :
    (delete keys m).lookup k = none := by
  induction keys generalizing m with
  | nil => exact absurd hk List.not_mem_nil
  | cons key keys ih =>
      rcases List.mem_cons.mp hk with rfl | hk
      · cases hlook : (delete (k :: keys) m).lookup k with
        | none => rfl
        | some ch =>
            have hrest : (delete keys (m.erase k)).lookup k = some ch := hlook
            have herased := lookup_delete hrest
            rw [AList.lookup_erase] at herased
            cases herased
      · exact ih hk

/-- Deleting a key of the map makes it smaller. -/
theorem length_delete_lt {keys : List Int64} (hk : k ∈ keys) (hm : k ∈ m) :
    (delete keys m).entries.length < m.entries.length := by
  have hsub := entries_delete_sublist keys m
  refine Nat.lt_of_le_of_ne hsub.length_le fun hlen => ?_
  have heq : delete keys m = m := AList.ext (hsub.eq_of_length hlen)
  have hnone := lookup_delete_mem (m := m) hk
  rw [heq] at hnone
  exact AList.lookup_eq_none.mp hnone hm

theorem chunksOf_sublist {m' : ChunkMap} (h : m'.entries.Sublist m.entries) :
    (chunksOf m').Sublist (chunksOf m) := h.map _

/-! ## The two views -/

/-- `findOverlappingChunks` finds the chunks of the map in the range, and each once. -/
def Agrees (c : ChunkCache) : Prop :=
  ∀ (order : MapOrder) (start stop : Int64),
    ((c.findOverlappingChunks order start stop).map Chunk.contents).Perm
      (((chunksOf c.chunkMap).filter (Chunk.within start stop)).map Chunk.contents)

/-- What is true of every cache: the tree has the chunks of the map, and perhaps more. -/
structure Viewed (c : ChunkCache) : Prop where
  sorted : c.intervalTree.Sorted
  filed : ∀ e ∈ c.chunkMap.entries, e.2.index = e.1
  sub : ((chunksOf c.chunkMap).map Chunk.contents).Subperm
    (c.intervalTree.items.map Chunk.contents)
  sizes : c.maxCacheSize = 1024 ∧ c.evictCount = 102

theorem filter_contents (start stop : Int64) (l : List Chunk) :
    (l.filter (Chunk.within start stop)).map Chunk.contents =
      (l.map Chunk.contents).filter fun x => x.1 ≥ start && x.1 ≤ stop := by
  rw [List.filter_map]
  rfl

theorem within_full (ch : Chunk) : ch.within Int64.minValue Int64.maxValue = true := by
  simp only [Chunk.within, Bool.and_eq_true, decide_eq_true_eq]
  exact ⟨Int64.minValue_le _, Int64.le_maxValue _⟩

/-- The two views agree exactly if the tree has as many chunks as the map. -/
theorem Viewed.agrees_iff {c : ChunkCache} (h : c.Viewed) :
    c.Agrees ↔ c.intervalTree.items.length = c.length := by
  have hlength : (chunksOf c.chunkMap).length = c.length := List.length_map _
  constructor
  · intro hagree
    have hfull := hagree .stored Int64.minValue Int64.maxValue
    have hall : ∀ l : List Chunk, l.filter (Chunk.within Int64.minValue Int64.maxValue) = l :=
      fun l => List.filter_eq_self.mpr fun ch _ => within_full ch
    rw [findOverlappingChunks, h.sorted.findOverlaps_eq, hall, hall] at hfull
    have hlen := hfull.length_eq
    rw [List.length_map, List.length_map, hlength] at hlen
    exact hlen
  · intro hlen order start stop
    have hperm : (c.intervalTree.items.map Chunk.contents).Perm
        ((chunksOf c.chunkMap).map Chunk.contents) := by
      refine (h.sub.perm_of_length_le ?_).symm
      rw [List.length_map, List.length_map, hlen, hlength]
    rw [findOverlappingChunks, h.sorted.findOverlaps_eq, filter_contents, filter_contents]
    exact hperm.filter _

theorem Viewed.length_le {c : ChunkCache} (h : c.Viewed) :
    c.length ≤ c.intervalTree.items.length := by
  have hlen := h.sub.length_le
  rw [List.length_map, List.length_map] at hlen
  exact Nat.le_trans (Nat.le_of_eq (List.length_map _).symm) hlen

/-! ## The operations -/

/-- An operation on the cache. -/
inductive CacheOp where
  | addChunk (order : MapOrder) (now : Nat) (ch : Chunk)
  | getChunk (index : Int64) (now : Nat)
  | evictBefore (minIdx : Int64)
  | clear

def CacheOp.apply (c : ChunkCache) : CacheOp → ChunkCache
  | .addChunk order now ch => c.addChunk order now ch
  | .getChunk index now => (c.getChunk index now).2
  | .evictBefore minIdx => c.evictBefore minIdx
  | .clear => c.clear

/-- The cache after a sequence of operations. -/
def runOps (ops : List CacheOp) : ChunkCache := ops.foldl CacheOp.apply newChunkCache

/-- The operation leaves the two views as they are to each other: a chunk that is added has a
new index and there is room for it, or it is not added at all; and nothing is evicted. -/
def CacheOp.Harmless (c : ChunkCache) : CacheOp → Prop
  | .addChunk _ _ ch =>
      ch.index < c.minIndex ∨ (c.hasChunk ch.index = false ∧ c.length < c.maxCacheSize)
  | .getChunk _ _ => True
  | .evictBefore minIdx => minIdx ≤ c.minIndex ∨ ∀ idx ∈ c.chunkMap.keys, minIdx ≤ idx
  | .clear => True

variable {c : ChunkCache}

/-- Chunks may leave the map. -/
theorem Viewed.shrink (h : c.Viewed) (hm : m.entries.Sublist c.chunkMap.entries)
    (minIndex : Int64) : Viewed { c with chunkMap := m, minIndex := minIndex } where
  sorted := h.sorted
  filed e he := h.filed e (hm.subset he)
  sub := ((chunksOf_sublist hm).map _).subperm.trans h.sub
  sizes := h.sizes

/-- The entry of a key, and the others. -/
theorem entries_of_lookup {ch : Chunk} (h : m.lookup k = some ch) :
    ∃ before after, m.entries = before ++ ⟨k, ch⟩ :: after ∧
      ∀ ch', (m.insert k ch').entries = ⟨k, ch'⟩ :: (before ++ after) := by
  have hk : k ∈ m := by
    rw [← AList.lookup_isSome, h]
    rfl
  obtain ⟨v, before, after, hbefore, hm, herase⟩ := List.exists_of_kerase (AList.mem_keys.mp hk)
  have hv : ch = v := by
    have hlook : m.entries.dlookup k = some ch := h
    rw [hm, List.dlookup_append, List.dlookup_eq_none.mpr hbefore, Option.none_or,
      List.dlookup_cons_eq] at hlook
    exact (Option.some.inj hlook).symm
  refine ⟨before, after, by rw [hv]; exact hm, fun ch' => ?_⟩
  rw [AList.entries_insert, herase]

theorem Viewed.getChunk (h : c.Viewed) (index : Int64) (now : Nat) :
    (c.getChunk index now).2.Viewed ∧ (c.getChunk index now).2.length = c.length ∧
      (c.getChunk index now).2.intervalTree = c.intervalTree := by
  unfold ChunkCache.getChunk
  cases hlook : c.chunkMap.lookup index with
  | none => exact ⟨h, rfl, rfl⟩
  | some ch =>
      obtain ⟨before, after, hold, hnew⟩ := entries_of_lookup hlook
      have hnew := hnew { ch with lastUsed := now }
      have hindex : ch.index = index :=
        h.filed ⟨index, ch⟩ (hold ▸ List.mem_append_right _ List.mem_cons_self)
      refine ⟨⟨h.sorted, fun e he => ?_, ?_, h.sizes⟩, ?_, rfl⟩
      · dsimp only at he
        rw [hnew] at he
        rcases List.mem_cons.mp he with rfl | he
        · exact hindex
        · refine h.filed e ?_
          rw [hold]
          exact List.perm_middle.mem_iff.mpr (List.mem_cons_of_mem _ he)
      · have hperm : ((chunksOf (c.chunkMap.insert index { ch with lastUsed := now })).map
            Chunk.contents).Perm ((chunksOf c.chunkMap).map Chunk.contents) := by
          unfold chunksOf
          rw [hnew, hold]
          simp only [List.map_cons, List.map_append]
          exact List.perm_middle.symm
        exact hperm.subperm.trans h.sub
      · unfold length
        dsimp only
        rw [hnew, hold, List.length_cons, List.length_append, List.length_append, List.length_cons]
        omega

/-- What a chunk that is added does to the contents of others. -/
theorem contents_replaced (ch c : Chunk) :
    (ch.replaced c).contents =
      if c.contents.1 = ch.index then ch.contents else c.contents := by
  unfold Chunk.replaced
  exact apply_ite _ _ _ _

/-- `addChunk` before it evicts anything. -/
def inserted (c : ChunkCache) (ch : Chunk) : ChunkCache :=
  { c with
    chunkMap := c.chunkMap.insert ch.index ch
    intervalTree := c.intervalTree.insertInterval ch.index ch.index ch }

theorem inserted_items (h : c.Viewed) (ch : Chunk) :
    (c.inserted ch).intervalTree.items.length = c.intervalTree.items.length + 1 := by
  rw [inserted, (items_insertInterval h.sorted ch).length_eq, List.length_cons, List.length_map]

theorem inserted_length (c : ChunkCache) (ch : Chunk) :
    (c.inserted ch).length = if c.hasChunk ch.index then c.length else c.length + 1 := by
  unfold inserted length hasChunk
  cases hlook : c.chunkMap.lookup ch.index with
  | none =>
      have hnew : ch.index ∉ c.chunkMap := AList.lookup_eq_none.mp hlook
      dsimp only
      rw [AList.entries_insert_of_notMem hnew]
      rfl
  | some old =>
      obtain ⟨before, after, hold, hnew⟩ := entries_of_lookup hlook
      dsimp only
      rw [hnew, hold, if_pos Option.isSome_some, List.length_cons, List.length_append,
        List.length_append, List.length_cons]
      omega

theorem Viewed.inserted (h : c.Viewed) (ch : Chunk) : (c.inserted ch).Viewed := by
  have hentries : (c.chunkMap.insert ch.index ch).entries =
      ⟨ch.index, ch⟩ :: (c.chunkMap.erase ch.index).entries := AList.entries_insert
  have hsub := entries_erase_sublist c.chunkMap ch.index
  have hothers : ∀ e ∈ (c.chunkMap.erase ch.index).entries, e.2.index ≠ ch.index := by
    intro e he hsame
    rw [h.filed e (hsub.subset he)] at hsame
    have hkey : e.1 ∈ c.chunkMap.erase ch.index := AList.mem_keys.mpr (List.mem_keys_of_mem he)
    rw [hsame] at hkey
    exact (AList.mem_erase.mp hkey).1 rfl
  refine ⟨h.sorted.insertInterval ch, fun e he => ?_, ?_, h.sizes⟩
  · rcases List.mem_cons.mp (hentries ▸ he) with rfl | he
    · rfl
    · exact h.filed e (hsub.subset he)
  · -- replacing the index everywhere changes none of the chunks that stay
    have hkept : chunksOf (c.chunkMap.erase ch.index) =
        (chunksOf (c.chunkMap.erase ch.index)).map ch.replaced := by
      refine (map_replaced_eq fun c' hc' => ?_).symm
      obtain ⟨e, he, rfl⟩ := List.mem_map.mp hc'
      exact hothers e he
    have hreplace : ∀ l : List Chunk, (l.map ch.replaced).map Chunk.contents =
        (l.map Chunk.contents).map fun x => if x.1 = ch.index then ch.contents else x := by
      intro l
      rw [List.map_map, List.map_map]
      exact List.map_congr_left fun c' _ => contents_replaced ch c'
    have hrest : ((chunksOf (c.chunkMap.erase ch.index)).map Chunk.contents).Subperm
        ((c.intervalTree.items.map ch.replaced).map Chunk.contents) := by
      obtain ⟨l, hperm, hl⟩ := ((chunksOf_sublist hsub).map Chunk.contents).subperm.trans h.sub
      rw [hkept, hreplace, hreplace]
      exact ⟨_, hperm.map _, hl.map _⟩
    have hmap : chunksOf (c.chunkMap.insert ch.index ch) =
        ch :: chunksOf (c.chunkMap.erase ch.index) := by
      unfold chunksOf
      rw [hentries]
      rfl
    have htree := (items_insertInterval h.sorted ch).map Chunk.contents
    unfold ChunkCache.inserted
    dsimp only
    rw [hmap]
    exact ((List.subperm_cons _).mpr hrest).trans htree.symm.subperm

/-! ### Evicting the oldest -/

theorem insertByUse_perm (key : Chunk) (chunks : List Chunk) :
    (insertByUse key chunks).Perm (key :: chunks) := by
  induction chunks with
  | nil => exact List.Perm.refl _
  | cons ch chunks ih =>
      unfold insertByUse
      split
      · exact List.Perm.refl _
      · exact (ih.cons ch).trans (List.Perm.swap key ch chunks)

theorem sortByUse_perm (chunks : List Chunk) : (sortByUse chunks).Perm chunks := by
  have hfold : ∀ (l acc : List Chunk),
      (l.foldl (fun sorted key => insertByUse key sorted) acc).Perm (l ++ acc) := by
    intro l
    induction l with
    | nil => exact fun acc => List.Perm.refl _
    | cons ch l ih =>
        intro acc
        refine (ih (insertByUse ch acc)).trans ?_
        exact ((insertByUse_perm ch acc).append_left l).trans List.perm_middle
  unfold sortByUse
  exact (hfold chunks []).trans (List.append_nil _ ▸ List.Perm.refl _)

/-- Iterating over the map in any order gives its chunks. -/
theorem values_perm (order : MapOrder) (m : ChunkMap) : (order.values m).Perm (chunksOf m) := by
  have hstored : m.keys.filterMap m.lookup = chunksOf m := by
    have hlook : ∀ e ∈ m.entries, m.lookup e.1 = some e.2 := fun e he =>
      (List.mem_dlookup_iff m.nodupKeys).mpr he
    unfold chunksOf AList.keys List.keys
    rw [List.filterMap_map]
    rw [← List.filterMap_eq_map]
    exact List.filterMap_congr hlook
  rw [← hstored]
  exact (order.perm m).filterMap _

/-- A cache that is too full loses chunks, but not as many that the tree would be rebuilt. -/
theorem Viewed.evictOldest (h : c.Viewed) (hfull : c.maxCacheSize < c.length) (order : MapOrder) :
    (c.evictOldest order).Viewed ∧ (c.evictOldest order).intervalTree = c.intervalTree ∧
      (c.evictOldest order).length < c.length := by
  obtain ⟨hmax, hcount⟩ := h.sizes
  unfold ChunkCache.evictOldest
  rw [if_neg (by omega)]
  generalize hsorted : sortByUse (order.values c.chunkMap) = chunks
  have hperm : chunks.Perm (chunksOf c.chunkMap) :=
    hsorted ▸ (sortByUse_perm _).trans (values_perm order c.chunkMap)
  dsimp only
  generalize hevicted : (chunks.take c.evictCount).map Chunk.index = evicted
  have hless : (delete evicted c.chunkMap).entries.length < c.chunkMap.entries.length := by
    -- the first of them is in the map
    have hlen : chunks.length = c.length := hperm.length_eq.trans (List.length_map _)
    obtain ⟨ch, rest, hcons⟩ : ∃ ch rest, chunks = ch :: rest :=
      List.exists_cons_of_length_pos (by omega)
    obtain ⟨e, he, rfl⟩ := List.mem_map.mp (hperm.mem_iff.mp (hcons ▸ List.mem_cons_self))
    have hfirst : e.2.index ∈ evicted := by
      rw [← hevicted, hcons, hcount, List.take_succ_cons]
      exact List.mem_cons_self
    rw [h.filed e he] at hfirst
    exact length_delete_lt hfirst (AList.mem_keys.mpr (List.mem_keys_of_mem he))
  have hmost : c.length ≤ (delete evicted c.chunkMap).entries.length + 102 := by
    refine Nat.le_trans (length_delete_le evicted c.chunkMap) (Nat.add_le_add_left ?_ _)
    rw [← hevicted, List.length_map, hcount]
    exact List.length_take_le _ _
  have hkept : ¬ 2 * (delete evicted c.chunkMap).entries.length < c.maxCacheSize := by omega
  unfold length
  dsimp only
  rw [if_neg hkept]
  exact ⟨h.shrink (entries_delete_sublist evicted c.chunkMap) c.minIndex, rfl, hless⟩

/-! ### One operation, and all of them -/

/-- The tree has more chunks than the map once something harmful has been done. -/
structure Gap (c c' : ChunkCache) (harmless : Prop) : Prop where
  viewed : c'.Viewed
  gap : c'.intervalTree.items.length = c'.length ↔
    c.intervalTree.items.length = c.length ∧ harmless

theorem Viewed.addChunk (h : c.Viewed) (order : MapOrder) (now : Nat) (ch : Chunk) :
    Gap c (c.addChunk order now ch) ((CacheOp.addChunk order now ch).Harmless c) := by
  obtain ⟨hmax, _⟩ := h.sizes
  have hle := h.length_le
  unfold ChunkCache.addChunk
  by_cases hmin : ch.index < c.minIndex
  · rw [if_pos hmin]
    exact ⟨h, ⟨fun heq => ⟨heq, .inl hmin⟩, fun h => h.1⟩⟩
  · rw [if_neg hmin]
    generalize hstamped : ({ ch with lastUsed := now } : Chunk) = ch'
    have hindex : ch'.index = ch.index := by
      rw [← hstamped]
    have hview := h.inserted ch'
    have hitems := inserted_items h ch'
    have hlength := inserted_length c ch'
    rw [hindex] at hlength
    have hharm : (CacheOp.addChunk order now ch).Harmless c ↔
        c.hasChunk ch.index = false ∧ c.length < c.maxCacheSize := by
      simp only [CacheOp.Harmless, hmin, false_or]
    rw [hharm]
    have hgoal : Gap c (if (c.inserted ch').length > (c.inserted ch').maxCacheSize then
        (c.inserted ch').evictOldest order else c.inserted ch')
        (c.hasChunk ch.index = false ∧ c.length < c.maxCacheSize) := by
      have hsize : (c.inserted ch').maxCacheSize = c.maxCacheSize := rfl
      split
      · rename_i hfull
        obtain ⟨hview', htree, hless⟩ := hview.evictOldest hfull order
        refine ⟨hview', ?_⟩
        rw [htree, hitems]
        -- there was no room for the chunk, and the tree has one more than before
        have hgrown : (c.inserted ch').length ≤ c.length + 1 := by
          rw [hlength]
          split
          · exact Nat.le_succ _
          · exact Nat.le_refl _
        refine iff_of_false (by omega) fun hboth => ?_
        obtain ⟨_, _, hroom⟩ := hboth
        omega
      · rename_i hroom
        refine ⟨hview, ?_⟩
        rw [hitems, hlength]
        rw [hlength] at hroom
        cases hhas : c.hasChunk ch.index with
        | true =>
            rw [if_pos rfl]
            simp only [Bool.true_eq_false, false_and, and_false, iff_false]
            omega
        | false =>
            rw [hhas] at hroom
            simp only [Bool.false_eq_true, if_false, true_and] at hroom ⊢
            omega
    subst hstamped
    exact hgoal

theorem Viewed.evictBefore (h : c.Viewed) (minIdx : Int64) :
    Gap c (c.evictBefore minIdx) ((CacheOp.evictBefore minIdx).Harmless c) := by
  have hle := h.length_le
  unfold ChunkCache.evictBefore
  by_cases hmin : minIdx ≤ c.minIndex
  · rw [if_pos hmin]
    exact ⟨h, ⟨fun heq => ⟨heq, .inl hmin⟩, fun h => h.1⟩⟩
  · rw [if_neg hmin]
    have hharm : (CacheOp.evictBefore minIdx).Harmless c ↔
        ∀ idx ∈ c.chunkMap.keys, minIdx ≤ idx := by
      simp only [CacheOp.Harmless, hmin, false_or]
    rw [hharm]
    refine ⟨h.shrink (entries_delete_sublist _ _) minIdx, ?_⟩
    unfold length at hle ⊢
    dsimp only
    by_cases hnone : ∀ idx ∈ c.chunkMap.keys, minIdx ≤ idx
    · have hfilter : (c.chunkMap.keys.filter fun idx => decide (idx < minIdx)) = [] := by
        refine List.filter_eq_nil_iff.mpr fun idx hidx hlt => ?_
        have := hnone idx hidx
        have := of_decide_eq_true hlt
        grind
      rw [hfilter]
      exact ⟨fun heq => ⟨heq, hnone⟩, fun h => h.1⟩
    · obtain ⟨idx, hidx, hlt⟩ : ∃ idx ∈ c.chunkMap.keys, idx < minIdx := by
        by_contra hcon
        refine hnone fun idx hidx => Int64.not_lt.mp fun hlt => hcon ⟨idx, hidx, hlt⟩
      have hbelow : idx ∈ c.chunkMap.keys.filter fun idx => decide (idx < minIdx) :=
        List.mem_filter.mpr ⟨hidx, decide_eq_true hlt⟩
      have hless := length_delete_lt hbelow (AList.mem_keys.mpr hidx)
      simp only [hnone, and_false, iff_false]
      omega

theorem viewed_empty (minIndex : Int64) :
    Viewed ⟨.nil, ∅, 1024, 102, minIndex⟩ where
  sorted := trivial
  filed _ he := absurd he List.not_mem_nil
  sub := List.Subperm.refl _
  sizes := ⟨rfl, rfl⟩

theorem Viewed.apply (h : c.Viewed) {op : CacheOp} (hop : op ≠ .clear) :
    Gap c (op.apply c) (op.Harmless c) := by
  cases op with
  | addChunk order now ch => exact h.addChunk order now ch
  | getChunk index now =>
      obtain ⟨hview, hlength, htree⟩ := h.getChunk index now
      refine ⟨hview, ?_⟩
      simp only [CacheOp.apply, hlength, htree, CacheOp.Harmless, and_true]
  | evictBefore minIdx => exact h.evictBefore minIdx
  | clear => exact absurd rfl hop

theorem Viewed.clear (h : c.Viewed) : c.clear.Viewed ∧ c.clear.Agrees := by
  have hview : c.clear.Viewed := by
    refine ⟨trivial, fun _ he => absurd he List.not_mem_nil, List.Subperm.refl _, h.sizes⟩
  exact ⟨hview, hview.agrees_iff.mpr rfl⟩

theorem runOps_append (ops : List CacheOp) (op : CacheOp) :
    runOps (ops ++ [op]) = op.apply (runOps ops) := by
  unfold runOps
  rw [List.foldl_append]
  rfl

theorem viewed_runOps (ops : List CacheOp) : (runOps ops).Viewed := by
  induction ops using List.reverseRecOn with
  | nil => exact viewed_empty 0
  | append_singleton ops op ih =>
      rw [runOps_append]
      by_cases hop : op = .clear
      · rw [hop]
        exact ih.clear.1
      · exact (ih.apply hop).viewed

/-- The operations since the cache was last cleared were harmless. -/
def HarmlessSinceClear (ops : List CacheOp) : Prop :=
  ∀ before op after, ops = before ++ op :: after → CacheOp.clear ∉ after →
    op.Harmless (runOps before)

theorem harmlessSinceClear_append {ops : List CacheOp} {op : CacheOp} (hop : op ≠ .clear) :
    HarmlessSinceClear (ops ++ [op]) ↔ HarmlessSinceClear ops ∧ op.Harmless (runOps ops) := by
  constructor
  · intro h
    refine ⟨fun before op' after heq hclear => ?_, h ops op [] rfl List.not_mem_nil⟩
    refine h before op' (after ++ [op]) (by rw [heq, List.append_assoc, List.cons_append]) ?_
    intro hmem
    rcases List.mem_append.mp hmem with hmem | hmem
    · exact hclear hmem
    · exact hop (List.mem_singleton.mp hmem).symm
  · rintro ⟨hold, hlast⟩ before op' after heq hclear
    rcases List.eq_nil_or_concat' after with rfl | ⟨init, last, rfl⟩
    · obtain ⟨rfl, hsame⟩ := List.append_inj' heq rfl
      cases hsame
      exact hlast
    · rw [← List.cons_append, ← List.append_assoc] at heq
      obtain ⟨hfront, _⟩ := List.append_inj' heq rfl
      exact hold before op' init hfront fun hmem => hclear (List.mem_append_left _ hmem)

theorem harmlessSinceClear_clear (ops : List CacheOp) : HarmlessSinceClear (ops ++ [.clear]) := by
  intro before op after heq hclear
  rcases List.eq_nil_or_concat' after with rfl | ⟨init, last, rfl⟩
  · obtain ⟨_, hsame⟩ := List.append_inj' heq rfl
    cases hsame
    trivial
  · rw [← List.cons_append, ← List.append_assoc] at heq
    obtain ⟨_, hsame⟩ := List.append_inj' heq rfl
    rw [← hsame] at hclear
    exact absurd (List.mem_append_right init (List.mem_singleton_self _)) hclear

/-- After any operations, the search in the tree finds exactly the chunks of the map, for every
range, if and only if since the last `clear` nothing was evicted and no chunk was added under
an index that was there. -/
theorem agrees_iff_harmless (ops : List CacheOp) :
    (runOps ops).Agrees ↔ HarmlessSinceClear ops := by
  induction ops using List.reverseRecOn with
  | nil =>
      refine iff_of_true ((viewed_runOps []).agrees_iff.mpr rfl) fun before op after heq => ?_
      exact absurd heq.symm (by simp)
  | append_singleton ops op ih =>
      by_cases hop : op = .clear
      · subst hop
        rw [runOps_append]
        exact iff_of_true (viewed_runOps ops).clear.2 (harmlessSinceClear_clear ops)
      · rw [harmlessSinceClear_append hop, ← ih, (viewed_runOps (ops ++ [op])).agrees_iff,
          (viewed_runOps ops).agrees_iff, runOps_append]
        exact ((viewed_runOps ops).apply hop).gap

/-- A chunk is added and evicted, and the tree still finds it. -/
theorem evicted_found :
    let c := runOps [.addChunk .stored 0 ⟨0, lit "x", 0⟩, .evictBefore 1]
    c.chunkMap = ∅ ∧ c.findOverlappingChunks .stored 0 0 = [⟨0, lit "x", 0⟩] ∧ ¬ c.Agrees := by
  refine ⟨AList.ext rfl, by decide, fun hagree => ?_⟩
  have hlen := ((viewed_runOps _).agrees_iff.mp hagree)
  exact absurd hlen (by decide)

end ChunkCache

end BuilderShim.Prefetch
