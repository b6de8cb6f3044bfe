/-
  Build/Overlay.lean --- the options of the frontend's client (frontendClient.BuildOpts
  and dockerfileConvertOpt, pkg/build/frontend.go).

  The options of the build are laid over those of the wrapped client: a key that the
  client has is left alone.  A key `name::platform` is also stored as `name`, and that
  is not guarded, so the last such key of one name that Go comes across decides what
  `name` is, whether or not the client had set it.
-/
import BuilderShim.GoLib.Maps
import BuilderShim.GoLib.Strings

set_option autoImplicit false

namespace BuilderShim.Build

open BuilderShim.Maps

/-- `map[string]string` -/
abbrev Options : Type := AList fun _ : Bytes => Bytes

/-- A key and its value. -/
abbrev Entry : Type := Sigma fun _ : Bytes => Bytes

/-- One round of the loop of `frontendClient.BuildOpts`. -/
def overlayStep (opts : Options) (e : Entry) : Options :=
  match opts.lookup e.1 with
  | some _ => opts
  | none =>
      let opts := opts.insert e.1 e.2
      match Strings.splitTwo (lit "::") e.1 with
      | none => opts
      | some (base, _) => opts.insert base e.2

/-- `frontendClient.BuildOpts`: the options, from those of the client. -/
def buildOpts (order : RangeOrder Bytes Bytes) (client frontendOpt : Options) : Options :=
  (order.entries frontendOpt).foldl overlayStep client

/-! ## What is stored -/

/-- The part of a key before `::`, if there is that. -/
def baseOf (key : Bytes) : Option Bytes := (Strings.splitTwo (lit "::") key).map Prod.fst

/-- What is stored under the shorter key. -/
def shortened (client : Options) (e : Entry) : Option (Bytes × Bytes) :=
  if client.lookup e.1 = none then (baseOf e.1).map fun base => (base, e.2) else none

def shortWrites (client : Options) (entries : List Entry) : List (Bytes × Bytes) :=
  entries.filterMap (shortened client)

/-- What is found under a key after some rounds: what was stored there as a shorter key last, or
else what the client has, or else the option. -/
def overlaid (client : Options) (entries : List Entry) (k : Bytes) : Option Bytes :=
  (lastWrite (shortWrites client entries) k).or ((client.lookup k).or (entries.dlookup k))

variable {base v name : Bytes} {client opts frontendOpt : Options} {entries : List Entry}
  {e : Entry}

theorem baseOf_base {key : Bytes} (h : baseOf key = some base) : baseOf base = none := by
  obtain ⟨⟨before, after⟩, hsplit, rfl⟩ := Option.map_eq_some_iff.mp h
  rw [baseOf, Strings.splitTwo_before hsplit]
  rfl

theorem mem_shortWrites {k : Bytes} :
    (k, v) ∈ shortWrites client entries ↔
      ∃ key, ⟨key, v⟩ ∈ entries ∧ client.lookup key = none ∧ baseOf key = some k := by
  unfold shortWrites
  rw [List.mem_filterMap]
  constructor
  · rintro ⟨e, he, hshort⟩
    unfold shortened at hshort
    split at hshort
    · rename_i hclient
      obtain ⟨base, hbase, heq⟩ := Option.map_eq_some_iff.mp hshort
      cases heq
      exact ⟨e.1, he, hclient, hbase⟩
    · cases hshort
  · rintro ⟨key, he, hclient, hbase⟩
    refine ⟨⟨key, v⟩, he, ?_⟩
    rw [shortened, if_pos hclient, hbase]
    rfl

/-- Nothing is stored under a key with a platform as a shorter one. -/
theorem lastWrite_shortWrites_of_base {k : Bytes} (h : baseOf k = some base) :
    lastWrite (shortWrites client entries) k = none := by
  refine lastWrite_eq_none fun v hv => ?_
  obtain ⟨key, _, _, hkey⟩ := mem_shortWrites.mp hv
  rw [baseOf_base hkey] at h
  cases h

theorem dlookup_single (e : Entry) (k : Bytes) :
    [e].dlookup k = if e.1 = k then some e.2 else none := by
  by_cases h : e.1 = k
  · subst h
    rw [if_pos rfl]
    exact List.dlookup_cons_eq _ _ _
  · rw [if_neg h, List.dlookup_cons_ne [] e (Ne.symm h)]
    rfl

theorem overlaid_concat (client : Options) (entries : List Entry) (e : Entry) (k : Bytes) :
    overlaid client (entries ++ [e]) k =
      ((lastWrite (shortWrites client [e]) k).or (lastWrite (shortWrites client entries) k)).or
        ((client.lookup k).or ((entries.dlookup k).or (if e.1 = k then some e.2 else none))) := by
  unfold overlaid shortWrites
  rw [List.filterMap_append, lastWrite_append, List.dlookup_append, dlookup_single]

/-- The round of a key that is there. -/
theorem overlayStep_of_some (h : opts.lookup e.1 = some v) :
    overlayStep opts e = opts := by
  rw [overlayStep, h]

/-- The round of a key that is not there, without and with a platform. -/
theorem lookup_overlayStep (h : opts.lookup e.1 = none) (k : Bytes) :
    (overlayStep opts e).lookup k =
      if baseOf e.1 = some k then some e.2 else if e.1 = k then some e.2 else opts.lookup k := by
  have hinsert : (opts.insert e.1 e.2).lookup k = if e.1 = k then some e.2 else opts.lookup k := by
    by_cases hk : e.1 = k
    · rw [if_pos hk, ← hk]
      exact AList.lookup_insert opts
    · rw [if_neg hk]
      exact AList.lookup_insert_ne (Ne.symm hk)
  rw [overlayStep, h, baseOf]
  dsimp only
  cases hsplit : Strings.splitTwo (lit "::") e.1 with
  | none =>
      rw [Option.map_none, if_neg (Option.some_ne_none k).symm]
      exact hinsert
  | some parts =>
      rw [Option.map_some]
      by_cases hk : parts.1 = k
      · rw [if_pos (congrArg some hk), ← hk]
        exact AList.lookup_insert _
      · rw [if_neg fun heq => hk (Option.some.inj heq), ← hinsert]
        exact AList.lookup_insert_ne (Ne.symm hk)

/-- One round, for a key that was not seen yet. -/
theorem overlayStep_overlaid (hopts : ∀ k, opts.lookup k = overlaid client entries k)
    (hfresh : entries.dlookup e.1 = none) (k : Bytes) :
    (overlayStep opts e).lookup k = overlaid client (entries ++ [e]) k := by
  rw [overlaid_concat]
  have hkey : opts.lookup e.1 =
      (lastWrite (shortWrites client entries) e.1).or (client.lookup e.1) := by
    rw [hopts, overlaid, hfresh, Option.or_none]
  cases hbase : baseOf e.1 with
  | some base =>
      rw [lastWrite_shortWrites_of_base hbase, Option.none_or] at hkey
      cases hclient : client.lookup e.1 with
      | some v =>
          -- the client has the key: nothing is stored
          have hnone : shortWrites client [e] = [] := by
            rw [shortWrites, List.filterMap_cons, shortened, hclient]
            rfl
          rw [overlayStep_of_some (hkey.trans hclient), hopts, overlaid, hnone]
          by_cases hk : e.1 = k
          · subst hk
            rw [hclient]
            rfl
          · rw [if_neg hk, Option.or_none]
            rfl
      | none =>
          have hone : shortWrites client [e] = [(base, e.2)] := by
            rw [shortWrites, List.filterMap_cons, shortened, if_pos hclient, hbase]
            rfl
          rw [lookup_overlayStep (hkey.trans hclient), hbase, hone, lastWrite_single]
          by_cases hb : base = k
          · rw [if_pos (congrArg some hb), if_pos hb]
            rfl
          · rw [if_neg fun heq => hb (Option.some.inj heq), if_neg hb, Option.none_or]
            by_cases hk : e.1 = k
            · subst hk
              rw [if_pos rfl, if_pos rfl, lastWrite_shortWrites_of_base hbase, hclient, hfresh]
              rfl
            · rw [if_neg hk, if_neg hk, Option.or_none, hopts]
              rfl
  | none =>
      have hnone : shortWrites client [e] = [] := by
        rw [shortWrites, List.filterMap_cons, shortened, hbase, Option.map_none, ite_self]
        rfl
      rw [hnone, lastWrite_nil, Option.none_or]
      cases hseen : opts.lookup e.1 with
      | some v =>
          rw [overlayStep_of_some hseen, hopts, overlaid]
          by_cases hk : e.1 = k
          · -- it is found where the option would not be looked for
            subst hk
            rw [hseen] at hkey
            rw [hfresh, Option.or_none, ← hkey, ← Option.or_assoc, ← hkey]
            rfl
          · rw [if_neg hk, Option.or_none]
      | none =>
          obtain ⟨hlast, hclient⟩ := Option.or_eq_none_iff.mp (hkey.symm.trans hseen)
          rw [lookup_overlayStep hseen, hbase, if_neg (Option.some_ne_none k).symm]
          by_cases hk : e.1 = k
          · subst hk
            rw [if_pos rfl, if_pos rfl, hlast, hclient, hfresh]
            rfl
          · rw [if_neg hk, if_neg hk, Option.or_none, hopts]
            rfl

/-- All rounds. -/
theorem foldl_overlayStep {rest : List Entry}
    (hopts : ∀ k, opts.lookup k = overlaid client entries k)
    (hnodup : ((entries ++ rest).map Sigma.fst).Nodup) (k : Bytes) :
    (rest.foldl overlayStep opts).lookup k = overlaid client (entries ++ rest) k := by
  induction rest generalizing entries opts with
  | nil =>
      rw [List.append_nil]
      exact hopts k
  | cons e rest ih =>
      have hfresh : entries.dlookup e.1 = none := by
        rw [List.dlookup_eq_none]
        intro hmem
        rw [List.map_append, List.map_cons] at hnodup
        exact (List.nodup_append.mp hnodup).2.2 e.1 hmem e.1 List.mem_cons_self rfl
      have hassoc : entries ++ e :: rest = entries ++ [e] ++ rest := by
        rw [List.append_assoc, List.singleton_append]
      rw [hassoc] at hnodup ⊢
      exact ih (fun k => overlayStep_overlaid hopts hfresh k) hnodup

/-- What `BuildOpts` has under a key. -/
theorem lookup_buildOpts (order : RangeOrder Bytes Bytes) (client frontendOpt : Options)
    (k : Bytes) :
    (buildOpts order client frontendOpt).lookup k =
      (lastWrite (shortWrites client (order.entries frontendOpt)) k).or
        ((client.lookup k).or (frontendOpt.lookup k)) := by
  have hstart : ∀ k, client.lookup k = overlaid client [] k := fun k => by
    rw [overlaid, List.dlookup_nil, Option.or_none]
    rfl
  have hoption : (order.entries frontendOpt).dlookup k = frontendOpt.lookup k :=
    List.perm_dlookup k (order.nodup frontendOpt) (order.perm frontendOpt)
  unfold buildOpts
  rw [foldl_overlayStep hstart (order.nodup frontendOpt), List.nil_append, overlaid, hoption]

/-- Everything that is stored under a shorter key is stored there last in some order. -/
theorem exists_order_lastWrite {key : Bytes} (hkey : frontendOpt.lookup key = some v)
    (hclient : client.lookup key = none) (hbase : baseOf key = some base) :
    ∃ order : RangeOrder Bytes Bytes,
      lastWrite (shortWrites client (order.entries frontendOpt)) base = some v := by
  refine ⟨.lastly key, ?_⟩
  have hmem : (⟨key, v⟩ : Entry) ∈ frontendOpt.entries :=
    (List.mem_dlookup_iff frontendOpt.nodupKeys).mp hkey
  have hlast : lastWrite (shortWrites client (frontendOpt.entries.filter (decide <| ·.1 = key)))
      base = some v := by
    refine lastWrite_of_agree (mem_shortWrites.mpr ⟨key, ?_, hclient, hbase⟩) fun v' hv' => ?_
    · exact List.mem_filter.mpr ⟨hmem, decide_eq_true rfl⟩
    · -- only that key is left, and it has one value
      obtain ⟨key', hentry, _, _⟩ := mem_shortWrites.mp hv'
      obtain ⟨hentry, hsame⟩ := List.mem_filter.mp hentry
      have hlook : frontendOpt.lookup key' = some v' :=
        (List.mem_dlookup_iff frontendOpt.nodupKeys).mpr hentry
      have hsame : key' = key := of_decide_eq_true hsame
      rw [hsame] at hlook
      exact Option.some.inj (hlook.symm.trans hkey)
  unfold RangeOrder.lastly shortWrites
  dsimp only
  rw [List.filterMap_append, lastWrite_append]
  unfold shortWrites at hlast
  rw [hlast, Option.some_or]

/-! ## The order of the options -/

/-- The options do not depend on the order in which Go iterates over the map. -/
def OrderFree (client frontendOpt : Options) : Prop :=
  ∀ (order order' : RangeOrder Bytes Bytes) (k : Bytes),
    (buildOpts order client frontendOpt).lookup k = (buildOpts order' client frontendOpt).lookup k

/-- Two keys of one name that the client does not have carry one value. -/
def PlatformsAgree (client frontendOpt : Options) : Prop :=
  ∀ key key' base v v', baseOf key = some base → baseOf key' = some base →
    client.lookup key = none → client.lookup key' = none →
    frontendOpt.lookup key = some v → frontendOpt.lookup key' = some v' → v = v'

theorem OrderFree.platformsAgree (hfree : OrderFree client frontendOpt) :
    PlatformsAgree client frontendOpt := by
  intro key key' base v v' hbase hbase' hclient hclient' hv hv'
  obtain ⟨order, hlast⟩ := exists_order_lastWrite hv hclient hbase
  obtain ⟨order', hlast'⟩ := exists_order_lastWrite hv' hclient' hbase'
  have hsame := hfree order order' base
  rw [lookup_buildOpts, lookup_buildOpts, hlast, hlast', Option.some_or, Option.some_or] at hsame
  exact Option.some.inj hsame

theorem PlatformsAgree.orderFree (hagree : PlatformsAgree client frontendOpt) :
    OrderFree client frontendOpt := by
  intro order order' k
  have hperm : (shortWrites client (order.entries frontendOpt)).Perm
      (shortWrites client (order'.entries frontendOpt)) :=
    ((order.perm frontendOpt).trans (order'.perm frontendOpt).symm).filterMap _
  rw [lookup_buildOpts, lookup_buildOpts, lastWrite_perm hperm fun v v' hv hv' => ?_]
  obtain ⟨key, hentry, hclient, hbase⟩ := mem_shortWrites.mp hv
  obtain ⟨key', hentry', hclient', hbase'⟩ := mem_shortWrites.mp hv'
  exact hagree key key' k v v' hbase hbase' hclient hclient'
    ((order.mem_iff frontendOpt).mp hentry) ((order.mem_iff frontendOpt).mp hentry')

/-- The options are the same for every order exactly if no two platforms of one name, both
unknown to the client, have different values. -/
theorem buildOpts_orderFree_iff (client frontendOpt : Options) :
    OrderFree client frontendOpt ↔ PlatformsAgree client frontendOpt :=
  ⟨OrderFree.platformsAgree, PlatformsAgree.orderFree⟩

/-! ## The client's options -/

/-- Whatever the client has set keeps its value. -/
def CallerWins (client frontendOpt : Options) : Prop :=
  ∀ (order : RangeOrder Bytes Bytes) (k v : Bytes), client.lookup k = some v →
    (buildOpts order client frontendOpt).lookup k = some v

/-- A key that the client does not have, of a name that it has, carries the client's value. -/
def PlatformsDefer (client frontendOpt : Options) : Prop :=
  ∀ key base v v', baseOf key = some base → client.lookup key = none →
    client.lookup base = some v → frontendOpt.lookup key = some v' → v' = v

/-- What the client has set is kept exactly if no platform of a name that the client has set
brings another value. -/
theorem buildOpts_callerWins_iff (client frontendOpt : Options) :
    CallerWins client frontendOpt ↔ PlatformsDefer client frontendOpt := by
  constructor
  · intro hwins key base v v' hbase hclient hset hv'
    obtain ⟨order, hlast⟩ := exists_order_lastWrite hv' hclient hbase
    have hkept := hwins order base v hset
    rw [lookup_buildOpts, hlast, Option.some_or] at hkept
    exact Option.some.inj hkept
  · intro hdefer order k v hset
    rw [lookup_buildOpts, hset, Option.some_or]
    cases hlast : lastWrite (shortWrites client (order.entries frontendOpt)) k with
    | none => rfl
    | some v' =>
        obtain ⟨key, hentry, hclient, hbase⟩ := mem_shortWrites.mp (mem_of_lastWrite hlast)
        rw [hdefer key k v v' hbase hclient hset ((order.mem_iff frontendOpt).mp hentry)]
        rfl

/-! ## The options of a build -/

/-- The fields of the build options that `dockerfileFrontendAttrs` reads. -/
structure AttrOpts where
  buildContexts : Options
  addHosts : List Bytes
  network : Bytes
  shmSize : Bytes
  ulimits : List Bytes
  noCache : Option Bytes

/-- Store a value, if there is one. -/
def storeWhen (key : Bytes) (value : Option Bytes) (attrs : Options) : Options :=
  match value with
  | some v => attrs.insert key v
  | none => attrs

/-- A text, or a list joined with commas, that is not empty. -/
def nonempty (s : Bytes) : Option Bytes := if s = [] then none else some s

def nonemptyList (l : List Bytes) : Option Bytes :=
  if l = [] then none else some (Strings.join (lit ",") l)

def dockerfileFrontendAttrs (order : RangeOrder Bytes Bytes) (b : AttrOpts) : Options :=
  let attrs := AList.singleton (lit "filename") (lit ".com.apple.container/Dockerfile")
  let attrs := storeAll (fun name => some (lit "context:" ++ name))
    (order.entries b.buildContexts) attrs
  let attrs := storeWhen (lit "add-hosts") (nonemptyList b.addHosts) attrs
  let attrs := storeWhen (lit "force-network-mode") (nonempty b.network) attrs
  let attrs := storeWhen (lit "shm-size") (nonempty b.shmSize) attrs
  let attrs := storeWhen (lit "ulimit") (nonemptyList b.ulimits) attrs
  storeWhen (lit "no-cache") b.noCache attrs

/-- The options for one state of the map: the image as an input, and its config. -/
def stateOptions (opts : Options) (e : Entry) : Options :=
  (opts.insert (lit "context:" ++ e.1) (lit "input:" ++ e.1)).insert
    (lit "input-metadata:" ++ e.1) e.2

/-- `frontendOpt` of `dockerfileConvertOpt`, from the names of the states and their configs. -/
def frontendOptFor (order : RangeOrder Bytes Bytes) (b : AttrOpts) (states : Options) : Options :=
  let opts : Options := (AList.singleton (lit "local.metadatatransfer") (lit "false")).insert
    (lit "local.differ") (lit "none")
  let opts := storeAll some (order.entries (dockerfileFrontendAttrs order b)) opts
  (order.entries states).foldl stateOptions opts

theorem context_injective {a b : Bytes} (h : lit "context:" ++ a = lit "context:" ++ b) : a = b :=
  List.append_cancel_left h

theorem context_ne_metadata (a b : Bytes) : lit "context:" ++ a ≠ lit "input-metadata:" ++ b := by
  intro h
  have hcontext : lit "context:" = 99 :: lit "ontext:" := by decide
  have hinput : lit "input-metadata:" = 105 :: lit "nput-metadata:" := by decide
  rw [hcontext, hinput, List.cons_append, List.cons_append] at h
  exact absurd (List.cons.inj h).1 (by decide)

/-- A state is the input of its own name. -/
theorem lookup_stateOptions (h : name ∈ entries.map Sigma.fst ∨
      opts.lookup (lit "context:" ++ name) = some (lit "input:" ++ name)) :
    (entries.foldl stateOptions opts).lookup (lit "context:" ++ name) =
      some (lit "input:" ++ name) := by
  induction entries generalizing opts with
  | nil => exact h.resolve_left List.not_mem_nil
  | cons e entries ih =>
      refine ih ?_
      by_cases hname : name = e.1
      · right
        rw [stateOptions, AList.lookup_insert_ne (context_ne_metadata name e.1), hname]
        exact AList.lookup_insert _
      · rw [List.map_cons, List.mem_cons] at h
        rcases h with (hhead | hmem) | hold
        · exact absurd hhead hname
        · exact .inl hmem
        · right
          rw [stateOptions, AList.lookup_insert_ne (context_ne_metadata name e.1),
            AList.lookup_insert_ne fun heq => hname (context_injective heq)]
          exact hold

theorem lookup_frontendOptFor {order : RangeOrder Bytes Bytes} {b : AttrOpts} {states : Options}
    (h : name ∈ states) :
    (frontendOptFor order b states).lookup (lit "context:" ++ name) =
      some (lit "input:" ++ name) := by
  refine lookup_stateOptions (.inl ?_)
  exact ((order.perm states).map Sigma.fst).mem_iff.mpr (AList.mem_keys.mp h)

/-- An image that is resolved for two platforms makes the options depend on the order, unless
the client has set one of the two. -/
theorem not_orderFree_of_two_platforms {order : RangeOrder Bytes Bytes} {b : AttrOpts}
    {states : Options} {name' : Bytes} (h : name ∈ states) (h' : name' ∈ states)
    (hne : name ≠ name') (hbase : baseOf (lit "context:" ++ name) = some base)
    (hbase' : baseOf (lit "context:" ++ name') = some base)
    (hclient : client.lookup (lit "context:" ++ name) = none)
    (hclient' : client.lookup (lit "context:" ++ name') = none) :
    ¬ OrderFree client (frontendOptFor order b states) := by
  intro hfree
  have hinput := hfree.platformsAgree _ _ base _ _ hbase hbase' hclient hclient'
    (lookup_frontendOptFor h) (lookup_frontendOptFor h')
  exact hne (List.append_cancel_left hinput)

/-- A build without options of its own. -/
def plainBuild : AttrOpts := ⟨∅, [], [], [], [], none⟩

/-- One image, resolved for two platforms. -/
def twoPlatforms : Options :=
  (AList.singleton (lit "alpine::linux/amd64") (lit "a")).insert (lit "alpine::linux/arm64")
    (lit "b")

/-- Which of the two `context:alpine` stands for depends on the order. -/
theorem two_platforms_not_orderFree :
    ¬ OrderFree ∅ (frontendOptFor .stored plainBuild twoPlatforms) := by
  have hmem : ∀ name ∈ twoPlatforms.keys, name ∈ twoPlatforms := fun _ => AList.mem_keys.mpr
  have hbase : baseOf (lit "context:alpine::linux/amd64") = some (lit "context:alpine") := by decide
  have hbase' : baseOf (lit "context:alpine::linux/arm64") = some (lit "context:alpine") :=
    by decide
  exact not_orderFree_of_two_platforms (hmem (lit "alpine::linux/amd64") (by decide))
    (hmem (lit "alpine::linux/arm64") (by decide)) (by decide) hbase hbase' rfl rfl

/-- A user's context, and the same image resolved for a platform. -/
theorem platform_replaces_context :
    ¬ CallerWins (AList.singleton (lit "context:alpine") (lit "local:mine"))
      (frontendOptFor .stored plainBuild
        (AList.singleton (lit "alpine::linux/amd64") (lit "a"))) := by
  intro hwins
  have hkept := hwins .stored (lit "context:alpine") (lit "local:mine") (by decide)
  exact absurd hkept (by decide)

end BuilderShim.Build
