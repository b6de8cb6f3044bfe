/-
  Prefetch/Rebuild.lean --- the interval tree that is built again from the map
  (rebuildIntervalTree of pkg/prefetch/cache.go).

  The chunks are inserted in the order in which Go iterates over the map, so the
  shape of the tree is different each time.  Its list of chunks is not: every chunk
  of the map is inserted once, none takes the place of another, and the tree is
  sorted after every insertion, so a search finds the chunks of the map in its range.
-/
import BuilderShim.Prefetch.Eviction

set_option autoImplicit false

namespace BuilderShim.Prefetch

open ChunkCache (Filed mem_chunksOf_iff twoChunks filed_twoChunks)

/-- The tree answers every range query with the chunks of the map whose index lies in the
range, and with each of them once. -/
structure ExactIndex (m : ChunkMap) (tree : IntervalTree) : Prop where
  found : ∀ (order : MapOrder) (start stop : Int64) (ch : Chunk),
    ch ∈ tree.findOverlaps order start stop ↔
      (∃ idx, m.lookup idx = some ch) ∧ start ≤ ch.index ∧ ch.index ≤ stop
  once : ∀ (order : MapOrder) (start stop : Int64),
    ((tree.findOverlaps order start stop).map Chunk.index).Nodup

/-! ## What is iterated over -/

theorem mem_entries {order : MapOrder} {m : ChunkMap} {idx : Int64} {ch : Chunk}
    (h : (idx, ch) ∈ order.entries m) : m.lookup idx = some ch := by
  obtain ⟨key, _, hkey⟩ := List.mem_filterMap.mp h
  obtain ⟨ch', hlook, heq⟩ := Option.map_eq_some_iff.mp hkey
  cases heq
  exact hlook

theorem entries_values (order : MapOrder) (m : ChunkMap) :
    (order.entries m).map Prod.snd = order.values m := by
  unfold MapOrder.entries MapOrder.values
  rw [List.map_filterMap]
  refine List.filterMap_congr fun idx _ => ?_
  rw [Option.map_map]
  exact congrFun Option.map_id _

/-! ## Inserting all of them -/

/-- What one round does, for a chunk that is filed under its index. -/
theorem reinsert_eq {tree : IntervalTree} {idx : Int64} {ch : Chunk} (h : ch.index = idx) :
    tree.reinsert idx ch = tree.insertInterval ch.index ch.index ch := by
  subst h
  cases tree with
  | nil => rfl
  | node start stop chunks left right max => rfl

/-- The chunks are added to those of the tree, as long as no two of them have one index. -/
theorem foldl_reinsert {entries : List (Int64 × Chunk)} {tree : IntervalTree}
    (hsorted : tree.Sorted) (hfiled : ∀ e ∈ entries, e.2.index = e.1)
    (hnodup : ((entries.map Prod.snd ++ tree.items).map Chunk.index).Nodup) :
    (entries.foldl (fun tree e => tree.reinsert e.1 e.2) tree).Sorted ∧
      (entries.foldl (fun tree e => tree.reinsert e.1 e.2) tree).items.Perm
        (entries.map Prod.snd ++ tree.items) := by
  induction entries generalizing tree with
  | nil => exact ⟨hsorted, List.Perm.refl _⟩
  | cons e entries ih =>
      have hround : tree.reinsert e.1 e.2 = tree.insertInterval e.2.index e.2.index e.2 :=
        reinsert_eq (hfiled e List.mem_cons_self)
      have hfresh : ∀ c ∈ tree.items, c.index ≠ e.2.index := by
        intro c hc heq
        refine (List.nodup_cons.mp hnodup).1 ?_
        rw [← heq]
        exact List.mem_map_of_mem (List.mem_append_right _ hc)
      -- nothing in the tree is replaced
      have hitems : (tree.reinsert e.1 e.2).items.Perm (e.2 :: tree.items) := by
        have hinsert := items_insertInterval hsorted e.2
        rwa [map_replaced_eq hfresh, ← hround] at hinsert
      have hmove : (entries.map Prod.snd ++ (tree.reinsert e.1 e.2).items).Perm
          ((e :: entries).map Prod.snd ++ tree.items) :=
        (hitems.append_left _).trans List.perm_middle
      have hnext := ih (hround ▸ hsorted.insertInterval e.2)
        (fun e' he' => hfiled e' (List.mem_cons_of_mem _ he'))
        ((hmove.map Chunk.index).nodup_iff.mpr hnodup)
      exact ⟨hnext.1, hnext.2.trans hmove⟩

/-- The rebuilt tree is sorted, and its chunks are those of the map. -/
theorem rebuilt_items {c : ChunkCache} (hfiled : c.Filed) (order : MapOrder) :
    (c.rebuildIntervalTree order).intervalTree.Sorted ∧
      (c.rebuildIntervalTree order).intervalTree.items.Perm (chunksOf c.chunkMap) := by
  have hvalues : ((order.entries c.chunkMap).map Prod.snd).Perm (chunksOf c.chunkMap) := by
    rw [entries_values]
    exact ChunkCache.values_perm order c.chunkMap
  have hown : ∀ e ∈ order.entries c.chunkMap, e.2.index = e.1 := fun e he =>
    hfiled e.1 e.2 (mem_entries he)
  have hnodup : (((order.entries c.chunkMap).map Prod.snd ++ IntervalTree.nil.items).map
      Chunk.index).Nodup := by
    rw [IntervalTree.items, List.append_nil, (hvalues.map Chunk.index).nodup_iff,
      hfiled.map_index]
    exact c.chunkMap.keys_nodup
  have hempty : IntervalTree.nil.Sorted := trivial
  obtain ⟨hsorted, hitems⟩ := foldl_reinsert hempty hown hnodup
  rw [IntervalTree.items, List.append_nil] at hitems
  exact ⟨hsorted, hitems.trans hvalues⟩

/-- Whatever the order in which the map is iterated over, rebuilding the tree from a map with
every chunk under its own index makes an exact index of it. -/
theorem rebuildIntervalTree_exactIndex (c : ChunkCache) (hfiled : c.Filed)
    (order : MapOrder) : ExactIndex c.chunkMap (c.rebuildIntervalTree order).intervalTree := by
  obtain ⟨hsorted, hitems⟩ := rebuilt_items hfiled order
  constructor
  · intro search start stop ch
    rw [hsorted.findOverlaps_eq, List.mem_filter, hitems.mem_iff, mem_chunksOf_iff]
    simp only [Chunk.within, Bool.and_eq_true, decide_eq_true_eq, ge_iff_le]
  · intro search start stop
    have hall : ((c.rebuildIntervalTree order).intervalTree.items.map Chunk.index).Nodup := by
      rw [(hitems.map Chunk.index).nodup_iff, hfiled.map_index]
      exact c.chunkMap.keys_nodup
    rw [hsorted.findOverlaps_eq]
    exact hall.sublist (List.filter_sublist.map _)

theorem rebuildIntervalTree_two :
    ExactIndex twoChunks.chunkMap (twoChunks.rebuildIntervalTree .stored).intervalTree :=
  rebuildIntervalTree_exactIndex twoChunks filed_twoChunks .stored

end BuilderShim.Prefetch
