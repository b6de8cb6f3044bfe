/-
  GoLib/Maps.lean --- loops over Go maps that fill another map.

  Go iterates over a map in any order.  A loop that stores each value under a key it
  makes of the old one gives the same map whatever the order, if no two keys become
  one.

  More generally, a map that several writers fill has the last of the values written to
  a key (`lastWrite`), so it does not depend on the order of the writes if and only if
  no two of them put different values under one key.
-/
import Mathlib.Data.List.AList

set_option autoImplicit false

namespace BuilderShim.Maps

universe u v w

variable {κ : Type u} {κ' : Type v} {β : Type w} [DecidableEq κ']

/-- An order in which Go may iterate over a map. -/
structure RangeOrder (κ : Type u) (β : Type w) where
  entries : AList (fun _ : κ => β) → List (Sigma fun _ : κ => β)
  perm : ∀ m, (entries m).Perm m.entries

/-- The order in which the entries are stored. -/
def RangeOrder.stored : RangeOrder κ β := ⟨AList.entries, fun _ => List.Perm.refl _⟩

/-- `for k, v := range m { if k' is made of k { acc[k'] = v } }` -/
def storeAll (f : κ → Option κ') (entries : List (Sigma fun _ : κ => β))
    (acc : AList fun _ : κ' => β) : AList fun _ : κ' => β :=
  entries.foldl (fun acc e =>
    match f e.1 with
    | some k => acc.insert k e.2
    | none => acc) acc

/-- No two keys become one. -/
def Apart (f : κ → Option κ') : Prop := ∀ a b k, f a = some k → f b = some k → a = b

section

variable {f : κ → Option κ'} {entries : List (Sigma fun _ : κ => β)}
  {acc : AList fun _ : κ' => β} {k : κ'}

theorem storeAll_cons (e : Sigma fun _ : κ => β) :
    storeAll f (e :: entries) acc =
      storeAll f entries (match f e.1 with | some k => acc.insert k e.2 | none => acc) := rfl

/-- A key that none becomes is left alone. -/
theorem lookup_storeAll_of_ne (h : ∀ e ∈ entries, f e.1 ≠ some k) :
    (storeAll f entries acc).lookup k = acc.lookup k := by
  induction entries generalizing acc with
  | nil => rfl
  | cons e entries ih =>
      rw [storeAll_cons, ih fun e' he' => h e' (List.mem_cons_of_mem _ he')]
      cases hf : f e.1 with
      | none => rfl
      | some k' =>
          have hne : k ≠ k' := fun heq => h e List.mem_cons_self (heq ▸ hf)
          exact AList.lookup_insert_ne hne

/-- A value is found under the key it was stored at. -/
theorem lookup_storeAll_of_mem (hf : Apart f) (hnodup : (entries.map Sigma.fst).Nodup)
    {e : Sigma fun _ : κ => β} (he : e ∈ entries) (hk : f e.1 = some k) :
    (storeAll f entries acc).lookup k = some e.2 := by
  induction entries generalizing acc with
  | nil => exact absurd he List.not_mem_nil
  | cons e' entries ih =>
      obtain ⟨hnew, hnodup⟩ := List.nodup_cons.mp (List.map_cons ▸ hnodup)
      rw [storeAll_cons]
      rcases List.mem_cons.mp he with rfl | he
      · -- no later entry has the same key
        rw [lookup_storeAll_of_ne fun e' he' hk' => hnew ?_, hk]
        · exact AList.lookup_insert acc
        · rw [hf e.1 e'.1 k hk hk']
          exact List.mem_map_of_mem he'
      · exact ih hnodup he

end

section

variable {f : κ → Option κ'} (order : RangeOrder κ β) (m : AList fun _ : κ => β)
  (acc : AList fun _ : κ' => β)

theorem RangeOrder.nodup : ((order.entries m).map Sigma.fst).Nodup :=
  ((order.perm m).map Sigma.fst).nodup_iff.mpr m.nodupKeys

theorem lookup_storeAll_none {k : κ'} (hk : ∀ a, f a ≠ some k) :
    (storeAll f (order.entries m) acc).lookup k = acc.lookup k :=
  lookup_storeAll_of_ne fun e _ => hk e.1

variable [DecidableEq κ]

theorem RangeOrder.mem_iff {e : Sigma fun _ : κ => β} :
    e ∈ order.entries m ↔ m.lookup e.1 = some e.2 := by
  rw [(order.perm m).mem_iff]
  exact (List.mem_dlookup_iff m.nodupKeys).symm

/-- In whatever order the map is iterated, a key holds the value of the key that became it. -/
theorem lookup_storeAll (hf : Apart f) {a : κ} {k : κ'} (hk : f a = some k) :
    (storeAll f (order.entries m) acc).lookup k = (m.lookup a).or (acc.lookup k) := by
  cases hlook : m.lookup a with
  | some v =>
      exact lookup_storeAll_of_mem hf (order.nodup m)
        ((order.mem_iff m (e := ⟨a, v⟩)).mpr hlook) hk
  | none =>
      rw [Option.none_or]
      refine lookup_storeAll_of_ne fun e he hk' => ?_
      rw [hf a e.1 k hk hk', (order.mem_iff m).mp he] at hlook
      cases hlook

/-- An order in which the given key comes last. -/
def RangeOrder.lastly (k : κ) : RangeOrder κ β where
  entries m := m.entries.filter (fun e => !decide (e.1 = k)) ++ m.entries.filter (decide <| ·.1 = k)
  perm m := List.perm_append_comm.trans (List.filter_append_perm (decide <| ·.1 = k) m.entries)

end

/-! ## Writes to one map -/

section

variable [DecidableEq κ] {writes writes' : List (κ × β)} {k : κ} {v : β}

/-- The value that is written to a key last. -/
def lastWrite (writes : List (κ × β)) (k : κ) : Option β :=
  ((writes.filter (decide <| ·.1 = k)).getLast?).map Prod.snd

theorem lastWrite_nil (k : κ) : lastWrite ([] : List (κ × β)) k = none := rfl

theorem lastWrite_append (writes writes' : List (κ × β)) (k : κ) :
    lastWrite (writes ++ writes') k = (lastWrite writes' k).or (lastWrite writes k) := by
  unfold lastWrite
  rw [List.filter_append, List.getLast?_append]
  exact Option.map_or

theorem lastWrite_single (k k' : κ) (v : β) :
    lastWrite [(k', v)] k = if k' = k then some v else none := by
  unfold lastWrite
  by_cases h : k' = k
  · simp [h]
  · simp [h]

theorem mem_of_lastWrite (h : lastWrite writes k = some v) : (k, v) ∈ writes := by
  obtain ⟨⟨k', v'⟩, hlast, rfl⟩ := Option.map_eq_some_iff.mp h
  obtain ⟨hmem, hkey⟩ := List.mem_filter.mp (List.mem_of_getLast? hlast)
  exact of_decide_eq_true hkey ▸ hmem

theorem lastWrite_isSome (h : (k, v) ∈ writes) : ∃ v', lastWrite writes k = some v' := by
  have hne : writes.filter (decide <| ·.1 = k) ≠ [] :=
    List.ne_nil_of_mem (List.mem_filter.mpr ⟨h, decide_eq_true rfl⟩)
  exact ⟨_, by rw [lastWrite, List.getLast?_eq_some_getLast hne]; rfl⟩

theorem lastWrite_eq_none (h : ∀ v, (k, v) ∉ writes) : lastWrite writes k = none := by
  cases hlast : lastWrite writes k with
  | none => rfl
  | some v => exact absurd (mem_of_lastWrite hlast) (h v)

/-- Whichever write is the last, it is there that the value comes from. -/
theorem lastWrite_of_agree (hmem : (k, v) ∈ writes) (hagree : ∀ v', (k, v') ∈ writes → v' = v) :
    lastWrite writes k = some v := by
  obtain ⟨v', hv'⟩ := lastWrite_isSome hmem
  rw [hv', hagree v' (mem_of_lastWrite hv')]

/-- The order of the writes does not matter to a key that has one value written to it. -/
theorem lastWrite_perm (hperm : writes.Perm writes')
    (hagree : ∀ v v', (k, v) ∈ writes → (k, v') ∈ writes → v = v') :
    lastWrite writes k = lastWrite writes' k := by
  cases hlast : lastWrite writes k with
  | none =>
      refine (lastWrite_eq_none fun v hv => ?_).symm
      obtain ⟨v', hv'⟩ := lastWrite_isSome (hperm.mem_iff.mpr hv)
      rw [hlast] at hv'
      cases hv'
  | some v =>
      have hmem := mem_of_lastWrite hlast
      exact (lastWrite_of_agree (hperm.mem_iff.mp hmem) fun v' hv' =>
        hagree v' v (hperm.mem_iff.mpr hv') hmem).symm

end

end BuilderShim.Maps
