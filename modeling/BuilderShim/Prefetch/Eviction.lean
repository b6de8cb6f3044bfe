/-
  Prefetch/Eviction.lean --- what the chunk cache evicts, and what it keeps.

  `evictOldest` takes the chunks out that come first in the order of their last
  use: its insertion sort, in place and over any order of the map, sorts.  Over
  whole sequences of operations the map is a window: the chunks filed under their
  indices, none below the largest index given to `evictBefore`, and no more than the
  cache may have.
-/
import BuilderShim.Foundation.InsertionSort
import BuilderShim.Prefetch.Overlaps

set_option autoImplicit false

namespace BuilderShim.Prefetch

open Foundation

namespace ChunkCache

/-! ## The insertion sort -/

theorem insertByUse_concat_of_lt {key ch : Chunk} {chunks : List Chunk}
    (h : key.lastUsed < ch.lastUsed) :
    insertByUse key (chunks ++ [ch]) = insertByUse key chunks ++ [ch] := by
  induction chunks with
  | nil =>
      unfold insertByUse
      exact if_pos h
  | cons first chunks ih =>
      rw [List.cons_append]
      unfold insertByUse
      split
      · rfl
      · rw [ih, List.cons_append]

theorem insertByUse_of_le {key : Chunk} {chunks : List Chunk}
    (h : ∀ ch ∈ chunks, ch.lastUsed ≤ key.lastUsed) : insertByUse key chunks = chunks ++ [key] := by
  induction chunks with
  | nil => rfl
  | cons first chunks ih =>
      have hfirst := h first List.mem_cons_self
      unfold insertByUse
      rw [if_neg (Nat.not_lt.mpr hfirst), ih fun ch hch => h ch (List.mem_cons_of_mem _ hch)]
      rfl

/-- Looking for the place of the key from the left finds the one the loop finds from the
right, where the chunks are sorted. -/
theorem insertByUse_eq_placed (key : Chunk) {chunks : List Chunk}
    (h : chunks.Pairwise (·.lastUsed ≤ ·.lastUsed)) :
    insertByUse key chunks = placed Chunk.lastUsed key chunks := by
  induction chunks using List.reverseRecOn with
  | nil => rfl
  | append_singleton chunks ch ih =>
      obtain ⟨hchunks, _, hlast⟩ := List.pairwise_append.mp h
      by_cases hlt : key.lastUsed < ch.lastUsed
      · rw [insertByUse_concat_of_lt hlt, placed_concat_of_lt hlt, ih hchunks]
      · have hle := Nat.not_lt.mp hlt
        have hall : ∀ c ∈ chunks ++ [ch], c.lastUsed ≤ key.lastUsed := by
          intro c hc
          rcases List.mem_append.mp hc with hc | hc
          · exact Nat.le_trans (hlast c hc ch List.mem_cons_self) hle
          · rw [List.mem_singleton.mp hc]
            exact hle
        rw [insertByUse_of_le hall, placed_concat_of_le hle, List.append_assoc]
        rfl

theorem sortByUse_eq_placedAll (chunks : List Chunk) :
    sortByUse chunks = placedAll Chunk.lastUsed chunks := by
  have hfold : ∀ (chunks sorted : List Chunk), sorted.Pairwise (·.lastUsed ≤ ·.lastUsed) →
      chunks.foldl (fun sorted key => insertByUse key sorted) sorted =
        chunks.foldl (fun sorted key => placed Chunk.lastUsed key sorted) sorted := by
    intro chunks
    induction chunks with
    | nil => exact fun _ _ => rfl
    | cons key chunks ih =>
        intro sorted hsorted
        rw [List.foldl_cons, List.foldl_cons, insertByUse_eq_placed key hsorted]
        exact ih _ (placed_sorted key hsorted)
  exact hfold chunks [] List.Pairwise.nil

/-- The two nested loops of `evictOldest` sort the slice in place. -/
theorem sortByUse_eq_loop (chunks : List Chunk) :
    sortByUse chunks = insertionSortLoop Chunk.lastUsed chunks := by
  rw [sortByUse_eq_placedAll, insertionSortLoop_eq]

theorem sortByUse_sorted (chunks : List Chunk) :
    (sortByUse chunks).Pairwise (·.lastUsed ≤ ·.lastUsed) := by
  rw [sortByUse_eq_placedAll]
  exact placedAll_sorted Chunk.lastUsed chunks

/-! ## The oldest chunks -/

variable {c : ChunkCache}

theorem lookup_delete_notMem {keys : List Int64} {m : ChunkMap} {k : Int64} (hk : k ∉ keys) :
    (delete keys m).lookup k = m.lookup k := by
  induction keys generalizing m with
  | nil => rfl
  | cons key keys ih =>
      have hne : k ≠ key := fun heq => hk (heq ▸ List.mem_cons_self)
      have hrest : (delete keys (m.erase key)).lookup k = (m.erase key).lookup k :=
        ih fun hmem => hk (List.mem_cons_of_mem _ hmem)
      exact hrest.trans (AList.lookup_erase_ne hne)

/-- Every chunk is filed under its own index. -/
def Filed (c : ChunkCache) : Prop := ∀ k ch, c.chunkMap.lookup k = some ch → ch.index = k

theorem mem_chunksOf_iff {m : ChunkMap} {ch : Chunk} :
    ch ∈ chunksOf m ↔ ∃ k, m.lookup k = some ch := by
  constructor
  · intro hch
    obtain ⟨⟨k, v⟩, he, hv⟩ := List.mem_map.mp hch
    cases hv
    exact ⟨k, (List.mem_dlookup_iff m.nodupKeys).mpr he⟩
  · rintro ⟨k, hk⟩
    exact List.mem_map.mpr ⟨⟨k, ch⟩, (List.mem_dlookup_iff m.nodupKeys).mp hk, rfl⟩

/-- The chunks have different indices, those of the map. -/
theorem Filed.map_index (h : c.Filed) :
    (chunksOf c.chunkMap).map Chunk.index = c.chunkMap.keys := by
  unfold chunksOf AList.keys List.keys
  rw [List.map_map]
  refine List.map_congr_left fun e he => ?_
  exact h e.1 e.2 ((List.mem_dlookup_iff c.chunkMap.nodupKeys).mpr he)

/-- The chunks in the order in which `evictOldest` goes through them. -/
def byUse (c : ChunkCache) (order : MapOrder) : List Chunk := sortByUse (order.values c.chunkMap)

theorem byUse_perm (c : ChunkCache) (order : MapOrder) :
    (c.byUse order).Perm (chunksOf c.chunkMap) :=
  (sortByUse_perm _).trans (values_perm order c.chunkMap)

/-- The indices of the chunks that go. -/
def oldest (c : ChunkCache) (order : MapOrder) : List Int64 :=
  ((c.byUse order).take c.evictCount).map Chunk.index

theorem length_oldest (c : ChunkCache) (order : MapOrder) :
    (c.oldest order).length = min c.evictCount c.length := by
  have hlen : (c.byUse order).length = c.length :=
    (c.byUse_perm order).length_eq.trans (List.length_map _)
  unfold oldest
  rw [List.length_map, List.length_take, hlen]

theorem Filed.keys_perm (h : c.Filed) (order : MapOrder) :
    ((c.byUse order).map Chunk.index).Perm c.chunkMap.keys := by
  rw [← h.map_index]
  exact (c.byUse_perm order).map _

/-- As many keys of the map go as there are oldest chunks. -/
theorem Filed.length_removed (h : c.Filed) (order : MapOrder) :
    (c.chunkMap.keys.filter fun k => decide (k ∈ c.oldest order)).length =
      (c.oldest order).length := by
  have hperm := h.keys_perm order
  have hnodup : ((c.byUse order).map Chunk.index).Nodup :=
    hperm.nodup_iff.mpr c.chunkMap.keys_nodup
  have hsub : (c.oldest order).Sublist ((c.byUse order).map Chunk.index) :=
    (List.take_sublist _ _).map _
  refine List.Perm.length_eq ((List.perm_ext_iff_of_nodup
    (c.chunkMap.keys_nodup.filter _) (hsub.nodup hnodup)).mpr fun k => ?_)
  rw [List.mem_filter, decide_eq_true_iff]
  exact ⟨fun hk => hk.2, fun hk => ⟨hperm.mem_iff.mp (hsub.subset hk), hk⟩⟩

/-- A chunk whose index is among the oldest was used no later than one whose index is not. -/
theorem Filed.lastUsed_le (h : c.Filed) {order : MapOrder} {k k' : Int64} {ch ch' : Chunk}
    (hch : c.chunkMap.lookup k = some ch) (hch' : c.chunkMap.lookup k' = some ch')
    (hk : k ∈ c.oldest order) (hk' : k' ∉ c.oldest order) : ch.lastUsed ≤ ch'.lastUsed := by
  obtain ⟨old, hold, hindex⟩ := List.mem_map.mp hk
  -- the chunk with the index `k` among the oldest is `ch`
  have hsame : old = ch := by
    obtain ⟨j, hj⟩ := mem_chunksOf_iff.mp
      ((c.byUse_perm order).mem_iff.mp (List.mem_of_mem_take hold))
    have hjk : j = k := (h j old hj).symm.trans hindex
    rw [hjk, hch] at hj
    exact (Option.some.inj hj).symm
  have hkept : ch' ∈ (c.byUse order).drop c.evictCount := by
    have hmem : ch' ∈ c.byUse order :=
      (c.byUse_perm order).mem_iff.mpr (mem_chunksOf_iff.mpr ⟨k', hch'⟩)
    rw [← List.take_append_drop c.evictCount (c.byUse order)] at hmem
    refine (List.mem_append.mp hmem).resolve_left fun htake => hk' ?_
    exact List.mem_map.mpr ⟨ch', htake, h k' ch' hch'⟩
  have hsorted := sortByUse_sorted (order.values c.chunkMap)
  rw [← List.take_append_drop c.evictCount (sortByUse _)] at hsorted
  exact hsame ▸ (List.pairwise_append.mp hsorted).2.2 old hold ch' hkept

theorem evictOldest_chunkMap (order : MapOrder) (h : c.maxCacheSize < c.length + c.evictCount) :
    (c.evictOldest order).chunkMap = delete (c.oldest order) c.chunkMap := by
  unfold evictOldest
  rw [if_neg (Nat.not_le.mpr h)]
  dsimp only
  split
  · rfl
  · rfl

/-- `c'` is `c` without its oldest chunks, as many as are to be evicted at a time. -/
structure EvictsOldest (c c' : ChunkCache) : Prop where
  removed : (c.chunkMap.keys.filter fun k => !c'.hasChunk k).length = min c.evictCount c.length
  untouched : ∀ k ch, c'.chunkMap.lookup k = some ch → c.chunkMap.lookup k = some ch
  oldest : ∀ k ch k' ch', c.chunkMap.lookup k = some ch → c'.hasChunk k = false →
    c'.chunkMap.lookup k' = some ch' → ch.lastUsed ≤ ch'.lastUsed

/-- In whatever order the map is iterated, `evictOldest` takes out the chunks that were used
longest ago. -/
theorem evictOldest_evictsOldest (c : ChunkCache) (order : MapOrder) (hfiled : c.Filed)
    (hcount : c.evictCount ≤ c.maxCacheSize) (hlarge : c.maxCacheSize - c.evictCount < c.length) :
    EvictsOldest c (c.evictOldest order) := by
  have hmap := evictOldest_chunkMap order (c := c) (by omega)
  have hlook : ∀ k, (c.evictOldest order).chunkMap.lookup k =
      if k ∈ c.oldest order then none else c.chunkMap.lookup k := by
    intro k
    rw [hmap]
    split
    case isTrue hk => exact lookup_delete_mem hk
    case isFalse hk => exact lookup_delete_notMem hk
  refine ⟨?_, fun k ch hk => ?_, fun k ch k' ch' hch hgone hkept => ?_⟩
  · rw [← length_oldest c order, ← hfiled.length_removed order]
    refine congrArg List.length (List.filter_congr fun k hk => ?_)
    unfold hasChunk
    rw [hlook]
    split
    case isTrue hold => rw [decide_eq_true hold]; rfl
    case isFalse hnot =>
      rw [decide_eq_false hnot, AList.lookup_isSome.mpr (AList.mem_keys.mpr hk)]
      rfl
  · rw [hmap] at hk
    exact lookup_delete hk
  · have hold : k ∈ c.oldest order := by
      by_contra hnot
      unfold hasChunk at hgone
      rw [hlook, if_neg hnot, hch] at hgone
      cases hgone
    have hnot : k' ∉ c.oldest order := fun hmem => by
      rw [hlook, if_pos hmem] at hkept
      cases hkept
    rw [hlook, if_neg hnot] at hkept
    exact hfiled.lastUsed_le hch hkept hold hnot

/-- Two chunks, of which the one with the greater index was used first. -/
def twoChunks : ChunkCache where
  intervalTree := .nil
  chunkMap := ((∅ : ChunkMap).insert 0 ⟨0, lit "b", 7⟩).insert 1 ⟨1, lit "a", 3⟩
  maxCacheSize := 2
  evictCount := 1
  minIndex := 0

theorem filed_twoChunks : twoChunks.Filed := by
  intro k ch hk
  have hmem : (⟨k, ch⟩ : Sigma fun _ => Chunk) ∈ twoChunks.chunkMap.entries :=
    (List.mem_dlookup_iff twoChunks.chunkMap.nodupKeys).mp hk
  have hall : ∀ e ∈ twoChunks.chunkMap.entries, e.2.index = e.1 := by decide
  exact hall ⟨k, ch⟩ hmem

theorem twoChunks_evictsOldest :
    EvictsOldest twoChunks (twoChunks.evictOldest .stored) ∧
      (twoChunks.evictOldest .stored).hasChunk 1 = false :=
  ⟨evictOldest_evictsOldest twoChunks .stored filed_twoChunks (by decide) (by decide), by decide⟩

/-! ## The window -/

theorem evictOldest_minIndex (order : MapOrder) : (c.evictOldest order).minIndex = c.minIndex := by
  unfold evictOldest
  split
  · rfl
  · dsimp only
    split
    · rfl
    · rfl

theorem addChunk_minIndex (order : MapOrder) (now : Nat) (ch : Chunk) :
    (c.addChunk order now ch).minIndex = c.minIndex := by
  unfold addChunk
  split
  · rfl
  · dsimp only
    split
    · exact evictOldest_minIndex order
    · rfl

theorem getChunk_minIndex (index : Int64) (now : Nat) :
    (c.getChunk index now).2.minIndex = c.minIndex := by
  unfold getChunk
  split
  · rfl
  · rfl

/-- The indices the window starts at: only `evictBefore` moves its start. -/
def CacheOp.start (minIndex : Int64) : CacheOp → Int64
  | .evictBefore minIdx => if minIdx ≤ minIndex then minIndex else minIdx
  | _ => minIndex

theorem start_evictBefore (minIndex minIdx : Int64) :
    (CacheOp.evictBefore minIdx).start minIndex =
      if minIdx ≤ minIndex then minIndex else minIdx := rfl

theorem apply_minIndex (op : CacheOp) (c : ChunkCache) :
    (op.apply c).minIndex = op.start c.minIndex := by
  cases op with
  | addChunk order now ch => exact addChunk_minIndex order now ch
  | getChunk index now => exact getChunk_minIndex index now
  | evictBefore minIdx =>
      show (c.evictBefore minIdx).minIndex = _
      rw [start_evictBefore, ChunkCache.evictBefore]
      split
      · rfl
      · rfl
  | clear => rfl

theorem le_start (minIndex : Int64) (op : CacheOp) : minIndex ≤ op.start minIndex := by
  cases op with
  | evictBefore minIdx =>
      rw [start_evictBefore]
      split
      case isTrue h => exact Int64.le_refl _
      case isFalse h => exact Int64.le_of_lt (Int64.not_le.mp h)
  | addChunk order now ch => exact Int64.le_refl _
  | getChunk index now => exact Int64.le_refl _
  | clear => exact Int64.le_refl _

/-- The chunks are filed under their indices and none is before the window. -/
def Inside (c : ChunkCache) : Prop := Holds (fun k _ => c.minIndex ≤ k) c

theorem Inside.evictBefore (h : c.Inside) (minIdx : Int64) : (c.evictBefore minIdx).Inside := by
  unfold ChunkCache.evictBefore
  split
  · exact h
  · intro k ch hk
    have hold := lookup_delete hk
    refine ⟨(h k ch hold).1, Int64.not_lt.mp fun hlt => ?_⟩
    have hkey : k ∈ c.chunkMap.keys :=
      AList.mem_keys.mp (AList.lookup_isSome.mp (Option.isSome_of_eq_some hold))
    have hbelow : k ∈ c.chunkMap.keys.filter fun idx => decide (idx < minIdx) :=
      List.mem_filter.mpr ⟨hkey, decide_eq_true hlt⟩
    cases (lookup_delete_mem hbelow).symm.trans hk

theorem Inside.apply (h : c.Inside) (op : CacheOp) : (op.apply c).Inside := by
  cases op with
  | addChunk order now ch =>
      show Inside (c.addChunk order now ch)
      by_cases hmin : ch.index < c.minIndex
      · rw [show c.addChunk order now ch = c from if_pos hmin]
        exact h
      · unfold Inside
        rw [addChunk_minIndex]
        exact Holds.addChunk h order now (Int64.not_lt.mp hmin)
  | getChunk index now =>
      show Inside (c.getChunk index now).2
      unfold Inside
      rw [getChunk_minIndex]
      exact (Holds.getChunk h index now).1
  | evictBefore minIdx => exact h.evictBefore minIdx
  | clear => exact holds_clear c

theorem inside_runOps (ops : List CacheOp) : (runOps ops).Inside := by
  induction ops using List.reverseRecOn with
  | nil => exact holds_new
  | append_singleton ops op ih =>
      rw [runOps_append]
      exact ih.apply op

/-- A chunk for which there is no room makes the cache evict. -/
theorem Viewed.addChunk_length_le (h : c.Viewed) (hle : c.length ≤ c.maxCacheSize)
    (order : MapOrder) (now : Nat) (ch : Chunk) :
    (c.addChunk order now ch).length ≤ c.maxCacheSize := by
  unfold ChunkCache.addChunk
  split
  · exact hle
  · have hview := h.inserted { ch with lastUsed := now }
    have hgrown : (c.inserted { ch with lastUsed := now }).length ≤ c.length + 1 := by
      rw [inserted_length]
      split
      · exact Nat.le_succ _
      · exact Nat.le_refl _
    dsimp only
    split
    case isTrue hfull =>
      have hless := (hview.evictOldest hfull order).2.2
      exact Nat.lt_succ_iff.mp (Nat.lt_of_lt_of_le hless
        (Nat.le_trans hgrown (Nat.succ_le_succ hle)))
    case isFalse hroom => exact Nat.not_lt.mp hroom

theorem Viewed.apply_length_le (h : c.Viewed) (hle : c.length ≤ c.maxCacheSize) (op : CacheOp) :
    (op.apply c).length ≤ c.maxCacheSize := by
  cases op with
  | addChunk order now ch => exact h.addChunk_length_le hle order now ch
  | getChunk index now => exact (h.getChunk index now).2.1 ▸ hle
  | evictBefore minIdx =>
      show (c.evictBefore minIdx).length ≤ _
      unfold ChunkCache.evictBefore
      split
      · exact hle
      · exact Nat.le_trans (entries_delete_sublist _ _).length_le hle
  | clear => exact Nat.zero_le _

theorem runOps_length_le (ops : List CacheOp) :
    (runOps ops).length ≤ (runOps ops).maxCacheSize := by
  induction ops using List.reverseRecOn with
  | nil => exact Nat.zero_le _
  | append_singleton ops op ih =>
      have hlen := (viewed_runOps ops).apply_length_le ih op
      rw [← runOps_append] at hlen
      rwa [(viewed_runOps ops).sizes.1, ← (viewed_runOps (ops ++ [op])).sizes.1] at hlen

/-- The window starts at the largest index given to `evictBefore`, or at 0. -/
structure Starts (ops : List CacheOp) (minIndex : Int64) : Prop where
  nonneg : 0 ≤ minIndex
  upper : ∀ minIdx, CacheOp.evictBefore minIdx ∈ ops → minIdx ≤ minIndex
  attained : minIndex = 0 ∨ CacheOp.evictBefore minIndex ∈ ops

theorem Starts.append {ops : List CacheOp} {minIndex : Int64} (h : Starts ops minIndex)
    (op : CacheOp) : Starts (ops ++ [op]) (op.start minIndex) := by
  have hgrows := le_start minIndex op
  refine ⟨Int64.le_trans h.nonneg hgrows, fun minIdx hmem => ?_, ?_⟩
  · rcases List.mem_append.mp hmem with hmem | hmem
    · exact Int64.le_trans (h.upper minIdx hmem) hgrows
    · cases List.mem_singleton.mp hmem
      rw [start_evictBefore]
      split
      case isTrue hle => exact hle
      case isFalse => exact Int64.le_refl _
  · have hold : minIndex = 0 ∨ CacheOp.evictBefore minIndex ∈ ops ++ [op] :=
      h.attained.imp_right (List.mem_append_left _)
    cases op with
    | evictBefore minIdx =>
        rw [start_evictBefore]
        split
        case isTrue => exact hold
        case isFalse => exact .inr (List.mem_append_right _ (List.mem_singleton_self _))
    | addChunk order now ch => exact hold
    | getChunk index now => exact hold
    | clear => exact hold

theorem starts_runOps (ops : List CacheOp) : Starts ops (runOps ops).minIndex := by
  induction ops using List.reverseRecOn with
  | nil => exact ⟨Int64.le_refl 0, fun _ h => absurd h List.not_mem_nil, .inl rfl⟩
  | append_singleton ops op ih =>
      rw [runOps_append, apply_minIndex]
      exact ih.append op

theorem minIndex_mono (ops more : List CacheOp) :
    (runOps ops).minIndex ≤ (runOps (ops ++ more)).minIndex := by
  induction more using List.reverseRecOn with
  | nil =>
      rw [List.append_nil]
      exact Int64.le_refl _
  | append_singleton more op ih =>
      rw [← List.append_assoc, runOps_append, apply_minIndex]
      exact Int64.le_trans ih (le_start _ op)

/-- What holds of a cache after any operations. -/
structure WindowInvariant (ops : List CacheOp) : Prop where
  filed : (runOps ops).Filed
  inside : ∀ k ∈ (runOps ops).chunkMap.keys, (runOps ops).minIndex ≤ k
  bounded : (runOps ops).length ≤ (runOps ops).maxCacheSize
  monotone : ∀ more, (runOps ops).minIndex ≤ (runOps (ops ++ more)).minIndex
  starts : Starts ops (runOps ops).minIndex
  refused : ∀ order now ch, ch.index < (runOps ops).minIndex →
    runOps (ops ++ [.addChunk order now ch]) = runOps ops

/-- A new cache stays a window, whatever is done with it. -/
theorem windowInvariant_runOps (ops : List CacheOp) : WindowInvariant ops where
  filed k ch hk := (inside_runOps ops k ch hk).1
  inside k hk := by
    obtain ⟨ch, hch⟩ := Option.isSome_iff_exists.mp
      (AList.lookup_isSome.mpr (AList.mem_keys.mpr hk))
    exact (inside_runOps ops k ch hch).2
  bounded := runOps_length_le ops
  monotone := minIndex_mono ops
  starts := starts_runOps ops
  refused order now ch hbelow := by
    rw [runOps_append]
    exact if_pos hbelow

end ChunkCache

end BuilderShim.Prefetch
