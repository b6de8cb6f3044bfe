/-
  Fssync/Interleave.lean --- what `syntheticDockerfileWalker` calls its callback with.

  The walker moves a cursor over its entries, in every call of `Walk` and in `Finish`.
  However the calls are spread, it offers `fn` one fixed interleaving of its entries
  with those it is given, up to the first error.
-/
import BuilderShim.Foundation.Merge
import BuilderShim.Fssync.Synthetic

set_option autoImplicit false

namespace BuilderShim.Fssync

open BuilderShim.Fileutils
open BuilderShim.Foundation
open BuilderShim.Posix

/-! ## Offering entries one after the other -/

/-- Calls of `fn` for one entry after the other, up to the first one it does not take. -/
def offer {σ : Type} (fn : σ → WalkEntry → Verdict × σ) : List WalkEntry → σ → Verdict × σ
  | [], s => (.proceed, s)
  | e :: rest, s =>
      if (fn s e).1 = .proceed then offer fn rest (fn s e).2 else fn s e

section

variable {σ : Type} {fn : σ → WalkEntry → Verdict × σ} {s : σ} {e : WalkEntry}
  {es rest : List WalkEntry}

theorem offer_cons_of_taken (h : (fn s e).1 = .proceed) :
    offer fn (e :: rest) s = offer fn rest (fn s e).2 :=
  if_pos h

theorem offer_cons_of_refused (h : (fn s e).1 ≠ .proceed) :
    offer fn (e :: rest) s = fn s e :=
  if_neg h

theorem offer_singleton : offer fn [e] s = fn s e := by
  by_cases h : (fn s e).1 = .proceed
  · rw [offer_cons_of_taken h]
    exact Prod.ext h.symm rfl
  · exact offer_cons_of_refused h

theorem offer_all (h : ∀ s e, (fn s e).1 = .proceed) (es : List WalkEntry) (s : σ) :
    (offer fn es s).1 = .proceed := by
  induction es generalizing s with
  | nil => rfl
  | cons e es ih =>
      rw [offer_cons_of_taken (h s e)]
      exact ih _

theorem offer_append_of_taken (h : (offer fn es s).1 = .proceed) :
    offer fn (es ++ rest) s = offer fn rest (offer fn es s).2 := by
  induction es generalizing s with
  | nil => rfl
  | cons e es ih =>
      by_cases he : (fn s e).1 = .proceed
      · rw [offer_cons_of_taken he] at h ⊢
        rw [List.cons_append, offer_cons_of_taken he]
        exact ih h
      · rw [offer_cons_of_refused he] at h
        exact absurd h he

theorem offer_append_of_refused (h : (offer fn es s).1 ≠ .proceed) :
    offer fn (es ++ rest) s = offer fn es s := by
  induction es generalizing s with
  | nil => exact absurd rfl h
  | cons e es ih =>
      by_cases he : (fn s e).1 = .proceed
      · rw [offer_cons_of_taken he] at h ⊢
        rw [List.cons_append, offer_cons_of_taken he]
        exact ih h
      · rw [List.cons_append, offer_cons_of_refused he, offer_cons_of_refused he]

end

/-! ## The walker offers an interleaving -/

namespace SyntheticDockerfileWalker

section

variable {σ : Type} (fn : σ → WalkEntry → Verdict × σ)

/-- `Walk` for one entry after the other as long as there is no error, and then `Finish`. -/
def run (w : SyntheticDockerfileWalker σ) : List WalkEntry → Verdict × SyntheticDockerfileWalker σ
  | [] => w.finish fn
  | e :: rest => if (w.walk fn e).1 = .proceed then (w.walk fn e).2.run rest else w.walk fn e

/-- A call has offered `fn` the entries `offered`, and if all were taken, `left` is left. -/
structure Offers (r : Verdict × SyntheticDockerfileWalker σ) (s : σ) (offered : List WalkEntry)
    (left : List SyntheticDockerfileEntry) : Prop where
  calls : (r.1, r.2.state) = offer fn offered s
  entries : r.1 = .proceed → r.2.entries = left

variable {fn}

theorem Offers.verdict {r : Verdict × SyntheticDockerfileWalker σ} {s : σ}
    {offered : List WalkEntry} {left : List SyntheticDockerfileEntry}
    (h : Offers fn r s offered left) : r.1 = (offer fn offered s).1 :=
  congrArg Prod.fst h.calls

theorem Offers.state {r : Verdict × SyntheticDockerfileWalker σ} {s : σ}
    {offered : List WalkEntry} {left : List SyntheticDockerfileEntry}
    (h : Offers fn r s offered left) : r.2.state = (offer fn offered s).2 :=
  congrArg Prod.snd h.calls

theorem emitWhile_offers (more : SyntheticDockerfileEntry → Bool)
    (entries : List SyntheticDockerfileEntry) (s : σ) :
    Offers fn (emitWhile fn more entries s) s ((entries.takeWhile more).map (·.emit))
      (entries.dropWhile more) := by
  induction entries generalizing s with
  | nil => exact ⟨rfl, fun _ => rfl⟩
  | cons entry rest ih =>
      rw [emitWhile]
      cases hmore : more entry with
      | false =>
          rw [List.takeWhile_cons, List.dropWhile_cons, hmore]
          exact ⟨rfl, fun _ => rfl⟩
      | true =>
          rw [List.takeWhile_cons_of_pos hmore, List.dropWhile_cons_of_pos hmore, List.map_cons,
            if_pos rfl]
          split
          · rename_i s' heq
            have htaken : (fn s entry.emit).1 = .proceed := by rw [heq]
            obtain ⟨hcalls, hentries⟩ := ih s'
            refine ⟨?_, hentries⟩
            rw [offer_cons_of_taken htaken, heq]
            exact hcalls
          · rename_i v s' hv heq
            have hrefused : (fn s entry.emit).1 ≠ .proceed := by
              rw [heq]
              exact hv
            refine ⟨?_, fun h => absurd ?_ hrefused⟩
            · rw [offer_cons_of_refused hrefused, heq]
            · rw [heq]
              exact h

theorem walk_offers (w : SyntheticDockerfileWalker σ) (e : WalkEntry) :
    Offers fn (w.walk fn e) w.state
      ((w.entries.takeWhile fun entry => decide (entry.path < e.name)).map (·.emit) ++ [e])
      (w.entries.dropWhile fun entry => decide (entry.path < e.name)) := by
  have h : Offers fn _ w.state _ _ :=
    emitWhile_offers (fun entry => decide (entry.path < e.name)) w.entries w.state
  unfold walk
  split
  · rename_i w' heq
    rw [heq] at h
    refine ⟨?_, fun _ => h.entries rfl⟩
    rw [offer_append_of_taken h.verdict.symm, ← h.state, offer_singleton]
  · rename_i v w' hv heq
    rw [heq] at h
    refine ⟨?_, fun hproceed => absurd hproceed hv⟩
    rw [offer_append_of_refused (h.verdict ▸ hv)]
    exact h.calls

theorem finish_offers (w : SyntheticDockerfileWalker σ) :
    Offers fn (w.finish fn) w.state (w.entries.map (·.emit)) [] := by
  have h : Offers fn (w.finish fn) w.state _ _ :=
    emitWhile_offers (fun _ => true) w.entries w.state
  have htake : w.entries.takeWhile (fun _ => true) = w.entries :=
    List.takeWhile_eq_self_iff.mpr fun _ _ => rfl
  have hdrop : w.entries.dropWhile (fun _ => true) = [] :=
    List.dropWhile_eq_nil_iff.mpr fun _ _ => rfl
  rwa [htake, hdrop] at h

end

/-- The order in which `Walk` compares paths. -/
def goesBefore (a b : WalkEntry) : Bool := decide (a.name < b.name)

theorem emit_goesBefore (e : WalkEntry) :
    (goesBefore · e) ∘ SyntheticDockerfileEntry.emit =
      fun entry => decide (entry.path < e.name) := by
  funext entry
  change decide (entry.emit.name < e.name) = _
  rw [emit_name]

/-- All that the calls offer `fn`, whichever of them does it. -/
theorem run_offers {σ : Type} {fn : σ → WalkEntry → Verdict × σ} (visited : List WalkEntry)
    (w : SyntheticDockerfileWalker σ) :
    Offers fn (w.run fn visited) w.state
      (mergeBefore goesBefore (w.entries.map (·.emit)) visited) [] := by
  induction visited generalizing w with
  | nil => exact w.finish_offers
  | cons e rest ih =>
      have h : Offers fn _ _ _ _ := w.walk_offers e
      have hmerged : mergeBefore goesBefore (w.entries.map (·.emit)) (e :: rest) =
          ((w.entries.takeWhile fun entry => decide (entry.path < e.name)).map (·.emit) ++ [e]) ++
            mergeBefore goesBefore ((w.entries.dropWhile fun entry =>
              decide (entry.path < e.name)).map (·.emit)) rest := by
        rw [mergeBefore, List.takeWhile_map, List.dropWhile_map, emit_goesBefore,
          List.append_assoc]
        rfl
      rw [hmerged, run]
      by_cases htaken : (w.walk fn e).1 = .proceed
      · obtain ⟨hcalls, hentries⟩ := ih (w.walk fn e).2
        rw [if_pos htaken]
        refine ⟨?_, hentries⟩
        rw [hcalls, h.entries htaken, offer_append_of_taken (h.verdict.symm.trans htaken), h.state]
      · rw [if_neg htaken]
        refine ⟨?_, fun hproceed => absurd hproceed htaken⟩
        rw [offer_append_of_refused (h.verdict ▸ htaken)]
        exact h.calls

/-- With a callback that takes everything, no call is left out. -/
theorem run_eq_finish_walks {σ : Type} {fn : σ → WalkEntry → Verdict × σ}
    (h : ∀ s e, (fn s e).1 = .proceed) (visited : List WalkEntry)
    (w : SyntheticDockerfileWalker σ) :
    w.run fn visited = (w.walks fn visited).finish fn := by
  induction visited generalizing w with
  | nil => rfl
  | cons e rest ih =>
      have htaken : (w.walk fn e).1 = .proceed := (w.walk_offers e).verdict.trans (offer_all h _ _)
      rw [run, if_pos htaken]
      exact ih _

end SyntheticDockerfileWalker

/-! ## A callback that notes its calls -/

section

variable {answer : List WalkEntry → WalkEntry → Verdict} {calls es before after : List WalkEntry}
  {e : WalkEntry}

theorem offer_noting_taken {rest : List WalkEntry} (h : answer calls e = .proceed) :
    offer (noting answer) (e :: rest) calls = offer (noting answer) rest (calls ++ [e]) :=
  if_pos h

theorem offer_noting_refused {rest : List WalkEntry} (h : answer calls e ≠ .proceed) :
    offer (noting answer) (e :: rest) calls = (answer calls e, calls ++ [e]) :=
  if_neg h

theorem offer_noting_all (h : ∀ calls e, answer calls e = .proceed) :
    offer (noting answer) es calls = (.proceed, calls ++ es) := by
  induction es generalizing calls with
  | nil =>
      rw [List.append_nil]
      rfl
  | cons e rest ih => rw [offer_noting_taken (h calls e), ih, List.append_assoc,
    List.singleton_append]

/-- What was called is what was offered, up to some point. -/
theorem offer_noting_prefix : calls <+: (offer (noting answer) es calls).2 ∧
    (offer (noting answer) es calls).2 <+: calls ++ es := by
  induction es generalizing calls with
  | nil =>
      rw [List.append_nil]
      exact ⟨List.prefix_rfl, List.prefix_rfl⟩
  | cons e rest ih =>
      by_cases he : answer calls e = .proceed
      · obtain ⟨hstart, hend⟩ := @ih (calls ++ [e])
        rw [offer_noting_taken he, List.append_cons calls e rest]
        exact ⟨(List.prefix_append calls [e]).trans hstart, hend⟩
      · rw [offer_noting_refused he, List.append_cons calls e rest]
        exact ⟨List.prefix_append calls [e], List.prefix_append _ rest⟩

/-- No call after one that failed, whose error is the result. -/
theorem offer_noting_stops (hcalls : (offer (noting answer) es calls).2 = before ++ e :: after)
    (hlength : calls.length ≤ before.length) (he : answer before e ≠ .proceed) :
    after = [] ∧ (offer (noting answer) es calls).1 = answer before e := by
  induction es generalizing calls with
  | nil =>
      have hsame : calls.length = (before ++ e :: after).length := congrArg List.length hcalls
      rw [List.length_append, List.length_cons] at hsame
      omega
  | cons x rest ih =>
      by_cases hx : answer calls x = .proceed
      · rw [offer_noting_taken hx] at hcalls ⊢
        refine ih hcalls ?_
        -- the call for `x` did not fail, so it is not the one that did
        rw [List.length_append, List.length_singleton]
        apply Nat.succ_le_of_lt
        refine Nat.lt_of_le_of_ne hlength fun hsame => he ?_
        obtain ⟨more, hmore⟩ : calls ++ [x] <+: (offer (noting answer) rest (calls ++ [x])).2 :=
          offer_noting_prefix.1
        rw [hcalls, List.append_assoc] at hmore
        obtain ⟨rfl, hrest⟩ := List.append_inj hmore hsame
        obtain ⟨rfl, _⟩ := List.cons.inj hrest
        exact hx
      · rw [offer_noting_refused hx] at hcalls ⊢
        have hsame : calls.length + 1 = before.length + (after.length + 1) := by
          have := congrArg List.length hcalls
          rwa [List.length_append, List.length_append, List.length_cons] at this
        have hafter : after = [] := List.eq_nil_of_length_eq_zero (by omega)
        obtain ⟨rfl, hlast⟩ := List.append_inj hcalls (by omega)
        obtain ⟨rfl, _⟩ := List.cons.inj hlast
        exact ⟨hafter, rfl⟩

/-- An error is that of the last call. -/
theorem offer_noting_fails (h : (offer (noting answer) es calls).1 ≠ .proceed) :
    ∃ before e, (offer (noting answer) es calls).2 = before ++ [e] ∧
      (offer (noting answer) es calls).1 = answer before e := by
  induction es generalizing calls with
  | nil => exact absurd rfl h
  | cons x rest ih =>
      by_cases hx : answer calls x = .proceed
      · rw [offer_noting_taken hx] at h ⊢
        exact ih h
      · rw [offer_noting_refused hx]
        exact ⟨calls, x, rfl, rfl⟩

end

/-! ## The entries of the request -/

/-- What the walker adds. -/
def syntheticEntries (proxy : Proxy) (requested : List Bytes) : List WalkEntry :=
  (newSyntheticDockerfileWalker (some proxy) requested).map (·.emit)

section

variable {proxy : Proxy} {requested : List Bytes}

/-- The files of the request that are asked for and not empty. -/
def givenFiles (proxy : Proxy) (requested : List Bytes) : List SyntheticDockerfileEntry :=
  (syntheticFiles proxy).filter fun file => decide (file.path ∈ requested) && !file.data.isEmpty

theorem mem_givenFiles {file : SyntheticDockerfileEntry} :
    file ∈ givenFiles proxy requested ↔
      file ∈ syntheticFiles proxy ∧ file.path ∈ requested ∧ file.data ≠ [] := by
  rw [givenFiles, List.mem_filter, Bool.and_eq_true, decide_eq_true_iff, Bool.not_eq_true',
    List.isEmpty_eq_false_iff]

theorem newSyntheticDockerfileWalker_eq :
    newSyntheticDockerfileWalker (some proxy) requested =
      if givenFiles proxy requested = [] then []
      else ⟨dockerfileStaging, []⟩ :: givenFiles proxy requested :=
  rfl

theorem syntheticFiles_path (proxy : Proxy) : (syntheticFiles proxy).map (·.path) =
    [syntheticDockerfile, syntheticDockerignore] :=
  rfl

theorem path_ne_staging {file : SyntheticDockerfileEntry} (h : file ∈ syntheticFiles proxy) :
    file.path ≠ dockerfileStaging := by
  have hpath : file.path ∈ [syntheticDockerfile, syntheticDockerignore] :=
    syntheticFiles_path proxy ▸ List.mem_map_of_mem h
  have hall : ∀ p ∈ [syntheticDockerfile, syntheticDockerignore], p ≠ dockerfileStaging := by
    decide
  exact hall _ hpath

theorem syntheticFiles_path_inj {file other : SyntheticDockerfileEntry}
    (hother : other ∈ syntheticFiles proxy) (hfile : file ∈ syntheticFiles proxy)
    (h : other.path = file.path) : other = file := by
  have hnodup : ((syntheticFiles proxy).map (·.path)).Nodup := by
    rw [syntheticFiles_path]
    decide
  exact List.inj_on_of_nodup_map hnodup hother hfile h

theorem syntheticEntries_names : (syntheticEntries proxy requested).map (·.name) =
    (newSyntheticDockerfileWalker (some proxy) requested).map (·.path) := by
  rw [syntheticEntries, List.map_map]
  exact List.map_congr_left fun entry _ => emit_name entry

theorem givenFiles_paths : ((givenFiles proxy requested).map (·.path)).Sublist
    [syntheticDockerfile, syntheticDockerignore] := by
  rw [← syntheticFiles_path proxy]
  exact List.filter_sublist.map _

theorem syntheticEntries_order : ((syntheticEntries proxy requested).map (·.name)).Sublist
    [dockerfileStaging, syntheticDockerfile, syntheticDockerignore] := by
  rw [syntheticEntries_names, newSyntheticDockerfileWalker_eq]
  split
  · exact List.nil_sublist _
  · exact givenFiles_paths.cons_cons _

theorem staging_mem_syntheticEntries :
    dockerfileStaging ∈ (syntheticEntries proxy requested).map (·.name) ↔
      ∃ file ∈ syntheticFiles proxy, file.path ∈ requested ∧ file.data ≠ [] := by
  rw [syntheticEntries_names, newSyntheticDockerfileWalker_eq]
  constructor
  · intro h
    split at h
    · cases h
    · rename_i hfiles
      obtain ⟨file, hfile⟩ := List.exists_mem_of_ne_nil _ hfiles
      exact ⟨file, mem_givenFiles.mp hfile⟩
  · rintro ⟨file, hfile⟩
    rw [if_neg (List.ne_nil_of_mem (mem_givenFiles.mpr hfile))]
    exact List.mem_cons_self

theorem file_mem_syntheticEntries {file : SyntheticDockerfileEntry}
    (hfile : file ∈ syntheticFiles proxy) :
    file.path ∈ (syntheticEntries proxy requested).map (·.name) ↔
      file.path ∈ requested ∧ file.data ≠ [] := by
  rw [syntheticEntries_names, newSyntheticDockerfileWalker_eq]
  constructor
  · intro h
    split at h
    · cases h
    · rcases List.mem_cons.mp h with hstaging | hmem
      · exact absurd hstaging (path_ne_staging hfile)
      · obtain ⟨other, hother, hpath⟩ := List.mem_map.mp hmem
        have hgiven := mem_givenFiles.mp hother
        rw [syntheticFiles_path_inj hgiven.1 hfile hpath] at hgiven
        exact hgiven.2
  · intro h
    have hgiven : file ∈ givenFiles proxy requested := mem_givenFiles.mpr ⟨hfile, h⟩
    rw [if_neg (List.ne_nil_of_mem hgiven)]
    exact List.mem_cons_of_mem _ (List.mem_map_of_mem hgiven)

end

/-! ## Nothing lost, nothing invented -/

/-- The result of the calls of `Walk` for `visited` and of `Finish`, and the calls of a
callback that answers `answer`. -/
def handedOn (answer : List WalkEntry → WalkEntry → Verdict) (proxy : Proxy)
    (requested : List Bytes) (visited : List WalkEntry) : Verdict × List WalkEntry :=
  let w : SyntheticDockerfileWalker (List WalkEntry) :=
    ⟨newSyntheticDockerfileWalker (some proxy) requested, []⟩
  ((w.run (noting answer) visited).1, (w.run (noting answer) visited).2.state)

/-- The callback is given the visited entries and the inputs of the request, up to its first
error. -/
structure MergesExactly (answer : List WalkEntry → WalkEntry → Verdict) (proxy : Proxy)
    (requested : List Bytes) (visited : List WalkEntry) : Prop where
  complete : (∀ calls e, answer calls e = .proceed) →
    (handedOn answer proxy requested visited).1 = .proceed ∧
      Interleaving (syntheticEntries proxy requested) visited
        (handedOn answer proxy requested visited).2
  order : ((syntheticEntries proxy requested).map (·.name)).Sublist
    [dockerfileStaging, syntheticDockerfile, syntheticDockerignore]
  staging : dockerfileStaging ∈ (syntheticEntries proxy requested).map (·.name) ↔
    ∃ file ∈ syntheticFiles proxy, file.path ∈ requested ∧ file.data ≠ []
  file : ∀ file ∈ syntheticFiles proxy,
    (file.path ∈ (syntheticEntries proxy requested).map (·.name) ↔
      file.path ∈ requested ∧ file.data ≠ [])
  stops : ∀ before e after, (handedOn answer proxy requested visited).2 = before ++ e :: after →
    answer before e ≠ .proceed →
      after = [] ∧ (handedOn answer proxy requested visited).1 = answer before e
  fails : (handedOn answer proxy requested visited).1 ≠ .proceed →
    ∃ before e, (handedOn answer proxy requested visited).2 = before ++ [e] ∧
      (handedOn answer proxy requested visited).1 = answer before e
  invents : ∃ merged, Interleaving (syntheticEntries proxy requested) visited merged ∧
    (handedOn answer proxy requested visited).2 <+: merged

theorem handedOn_mergesExactly (answer : List WalkEntry → WalkEntry → Verdict) (proxy : Proxy)
    (requested : List Bytes) (visited : List WalkEntry) :
    MergesExactly answer proxy requested visited := by
  have hoffer : handedOn answer proxy requested visited =
      offer (noting answer) (mergeBefore SyntheticDockerfileWalker.goesBefore
        (syntheticEntries proxy requested) visited) [] :=
    (SyntheticDockerfileWalker.run_offers visited
      ⟨newSyntheticDockerfileWalker (some proxy) requested, []⟩).calls
  have hinterleaving := interleaving_mergeBefore SyntheticDockerfileWalker.goesBefore
    (syntheticEntries proxy requested) visited
  refine ⟨fun hall => ?_, syntheticEntries_order, staging_mem_syntheticEntries,
    fun file hfile => file_mem_syntheticEntries hfile, fun before e after hcalls he => ?_,
    fun hfail => ?_, ⟨_, hinterleaving, ?_⟩⟩
  · rw [hoffer, offer_noting_all hall]
    exact ⟨rfl, hinterleaving⟩
  · rw [hoffer] at hcalls ⊢
    exact offer_noting_stops hcalls (Nat.zero_le _) he
  · rw [hoffer] at hfail ⊢
    exact offer_noting_fails hfail
  · rw [hoffer]
    exact offer_noting_prefix.2

end BuilderShim.Fssync
