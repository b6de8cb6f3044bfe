/-
  Stream/Answers.lean --- every request gets its own answer.

  The host answers what it was sent, so a packet with the id of a call arrives after
  the call has sent; by then the call's handler is registered.  The handler is the
  only one with that id, and stays in the table until its context is cancelled or the
  call gives it up: so it is delivered what arrives for it from the first packet on.
-/
import BuilderShim.Stream.Request

set_option autoImplicit false

namespace BuilderShim.Stream

open BuilderShim.Foundation

/-! ## What a step of the pipeline leaves alone -/

section

variable {filters : List FilterFn} {i : Nat} {p p' : Pipeline} {e : Event}

/-- The handlers are the same ones, later; only those in `R` have been read. -/
structure Steady (R : Nat → Prop) (p p' : Pipeline) : Prop where
  follows : Follows p p'
  back : ∀ (d : Nat) (D' : Demultiplexer), p'.demuxes[d]? = some D' →
    ∃ D, p.demuxes[d]? = some D ∧ D.Later D' ∧ (¬ R d → D'.received = D.received)

theorem Steady.refl (R : Nat → Prop) (p : Pipeline) : Steady R p p :=
  ⟨.refl p, fun _ D hd => ⟨D, hd, .refl D, fun _ => rfl⟩⟩

theorem steady_of_step (h : Pipeline.Step filters p e p')
    (hreg : ∀ j id f r c, e ≠ .register j id f r c) :
    Steady (fun d => ∃ m, e = .receive d m) p p' := by
  refine ⟨follows_of_step h, fun d D' hd => ?_⟩
  have hsame : ∀ {x : Demultiplexer}, p.demuxes[d]? = some x →
      ∃ D, p.demuxes[d]? = some D ∧ D.Later x ∧
        (¬ (∃ m, e = .receive d m) → x.received = D.received) :=
    fun {x} hx => ⟨x, hx, .refl x, fun _ => rfl⟩
  cases h with
  | run j _ hrun =>
      cases hrun with
      | accept _ hold _ _ =>
          rcases getElem?_set_cases hd with ⟨rfl, rfl⟩ | ⟨_, hother⟩
          · exact ⟨_, hold, ⟨rfl, rfl, rfl, rfl, rfl, fun h => h⟩, fun _ => rfl⟩
          · exact hsame hother
      | _ => exact hsame hd
  | register j id f r c => exact (hreg j id f r c rfl).elim
  | receive d' hold _ =>
      rcases getElem?_set_cases hd with ⟨rfl, rfl⟩ | ⟨_, hother⟩
      · exact ⟨_, hold, ⟨rfl, rfl, rfl, rfl, rfl, fun h => h⟩, fun h => (h ⟨_, rfl⟩).elim⟩
      · exact hsame hother
  | cancelDemux d' hold =>
      rcases getElem?_set_cases hd with ⟨rfl, rfl⟩ | ⟨_, hother⟩
      · exact ⟨_, hold, ⟨rfl, rfl, rfl, rfl, rfl, fun _ => rfl⟩, fun _ => rfl⟩
      · exact hsame hother
  | _ => exact hsame hd

/-- Packets arrive one by one. -/
theorem arrived_of_step (h : Pipeline.Step filters p e p') :
    p'.arrived = p.arrived ∨
      ∃ c, e = .arrive c ∧ p'.arrived = p.arrived ++ [⟨p.arrived.length, c⟩] := by
  cases h with
  | arrive c _ => exact .inr ⟨c, rfl, rfl⟩
  | _ => exact .inl rfl

theorem cancelled_of_step (h : Pipeline.Step filters p e p') (hc : p.cancelled = true) :
    p'.cancelled = true := by
  cases h with
  | recvError _ | cancel => rfl
  | _ => exact hc

/-- `Run` gives a handler up only when it is cancelled, and clears the table only at the
end. -/
def RunPoint.Settled (p : Pipeline) : RunPoint → Prop
  | .delete _ d | .close _ d => ∃ D, p.demuxes[d]? = some D ∧ D.closed = true
  | .range _ => p.cancelled = true
  | .select | .load _ | .check _ _ | .accept _ _ | .returned => True

def Settled (p : Pipeline) : Prop := ∀ i, (p.stages i).run.Settled p

theorem RunPoint.Settled.mono {run : RunPoint} (hfollows : Follows p p')
    (hc : p.cancelled = true → p'.cancelled = true) (h : run.Settled p) : run.Settled p' := by
  cases run with
  | delete m d | close m d =>
      obtain ⟨D, hd, hclosed⟩ := h
      obtain ⟨D', hd', hlater⟩ := hfollows d D hd
      exact ⟨D', hd', hlater.closed hclosed⟩
  | range left => exact hc h
  | _ => trivial

/-- The point `Run` goes to is settled in the state before. -/
theorem settled_of_run {ds : List Demultiplexer} {st : Stage}
    (h : RunStep p.cancelled p.demuxes (p.stages i) ds st) (hs : Settled p) :
    st.run.Settled p := by
  cases h with
  | done _ hc _ _ => exact hc
  | @visit left hrun _ =>
      have hold := hs i
      rw [hrun] at hold
      exact hold
  | closed _ hd hclosed | acceptDone _ hd _ hclosed => exact ⟨_, hd, hclosed⟩
  | _ => trivial

theorem Settled.step (hs : Settled p) (h : Pipeline.Step filters p e p') : Settled p' := by
  have hmono : ∀ {run : RunPoint}, run.Settled p → run.Settled p' :=
    fun {run} => RunPoint.Settled.mono (follows_of_step h) (cancelled_of_step h)
  have hset : ∀ {i : Nat} {st : Stage} (j : Nat), st.run.Settled p →
      (Function.update p.stages i st j).run.Settled p' := by
    intro i st j hst
    by_cases hj : j = i
    · subst hj
      rw [Function.update_self]
      exact hmono hst
    · rw [Function.update_of_ne hj]
      exact hmono (hs j)
  intro j
  cases h with
  | @process i m ch _ _ => exact hset j (hs i)
  | @run i ds st _ hrun => exact hset j (settled_of_run hrun hs)
  | register i _ _ _ _ | remove i _ => exact hset j (hs i)
  | @closeDemux d D _ _ => exact hset j (hs D.stage)
  | _ => exact hmono (hs j)

theorem settled_of_reach {C : Pipeline → Event → Prop}
    (hrun : Reach (Pipeline.Step filters) C .initial p) : Settled p :=
  hrun.invariant (I := Settled) (fun _ => trivial) fun _ _ _ h _ hstep => h.step hstep

theorem lookup_closeFn_ne {D : Demultiplexer} {t : Table} {id : Bytes} (hne : D.id ≠ id) :
    (D.closeFn t).lookup id = t.lookup id := by
  unfold Demultiplexer.closeFn
  split
  · exact AList.lookup_erase_ne hne.symm
  · rfl

/-- An entry stays as long as the handlers with its id are not cancelled, the pipeline is not,
and nobody puts another in its place or takes it out. -/
theorem lookup_stays (h : Pipeline.Step filters p e p') (hs : Settled p) {id : Bytes} {d : Nat}
    (hlook : (p.stages i).table.lookup id = some d) (hlive : p.cancelled = false)
    (hopen : ∀ (n : Nat) (D : Demultiplexer), p.demuxes[n]? = some D → D.closed = true → D.id ≠ id)
    (hreg : ∀ f r c, e ≠ .register i id f r c) (hrem : e ≠ .remove i id) :
    (p'.stages i).table.lookup id = some d := by
  have hset : ∀ {j : Nat} {st : Stage}, (i = j → st.table.lookup id = some d) →
      (Function.update p.stages j st i).table.lookup id = some d := by
    intro j st hst
    by_cases hj : i = j
    · subst hj
      rw [Function.update_self]
      exact hst rfl
    · rw [Function.update_of_ne hj]
      exact hlook
  cases h with
  | process _ _ => exact hset fun hj => hj ▸ hlook
  | @run j ds st _ hrun =>
      refine hset fun hj => ?_
      subst hj
      have hsettled := hs i
      cases hrun with
      | visit hrun _ =>
          rw [hrun] at hsettled
          exact absurd (hsettled.symm.trans hlive) (by simp)
      | delete hrun hd =>
          rw [hrun] at hsettled
          obtain ⟨D, hD, hclosed⟩ := hsettled
          rw [hd] at hD
          cases hD
          exact (AList.lookup_erase_ne (hopen _ _ hd hclosed).symm).trans hlook
      | close hrun hd =>
          rw [hrun] at hsettled
          obtain ⟨D, hD, hclosed⟩ := hsettled
          rw [hd] at hD
          cases hD
          exact (lookup_closeFn_ne (hopen _ _ hd hclosed)).trans hlook
      | _ => exact hlook
  | register j id' f r c =>
      refine hset fun hj => ?_
      subst hj
      have hne : id ≠ id' := fun heq => hreg f r c (heq ▸ rfl)
      exact (AList.lookup_insert_ne hne).trans hlook
  | closeDemux n hd hclosed =>
      exact hset fun hj => (lookup_closeFn_ne (hopen n _ hd hclosed)).trans (hj ▸ hlook)
  | remove j id' =>
      refine hset fun hj => ?_
      subst hj
      have hne : id ≠ id' := fun heq => hrem (heq ▸ rfl)
      exact (AList.lookup_erase_ne hne).trans hlook
  | _ => exact hlook

end

/-! ## Every handler is that of one call -/

/-- The call has not registered a handler yet. -/
def RequestPoint.Before : RequestPoint → Prop
  | .load | .register => True
  | .send _ | .delete _ | .recv _ | .close _ | .returned _ => False

/-- The call has not sent anything yet. -/
def RequestPoint.Unsent : RequestPoint → Prop
  | .load | .register | .send _ => True
  | .delete _ | .recv _ | .close _ | .returned _ => False

structure Owned (i : Nat) (filter : FilterByIDFn) (s : Requests) : Prop where
  place : ∀ (d : Nat) (D : Demultiplexer), s.pipeline.demuxes[d]? = some D →
    D.stage = i ∧ D.filter = filter D.id
  unique : ∀ (d d' : Nat) (D D' : Demultiplexer), s.pipeline.demuxes[d]? = some D →
    s.pipeline.demuxes[d']? = some D' → D.id = D'.id → d = d'
  before : ∀ (k : Nat) (c : Call), s.calls[k]? = some c → c.point.Before →
    ∀ (d : Nat) (D : Demultiplexer), s.pipeline.demuxes[d]? = some D → D.id ≠ c.id
  own : ∀ (k : Nat) (c : Call) (d : Nat), s.calls[k]? = some c → c.point.handler = some d →
    ∃ D, s.pipeline.demuxes[d]? = some D ∧ D.id = c.id ∧ D.received = []

/-- The call is the same one, on its way; if it has a handler, that was not read. -/
structure Call.Onward (R : Nat → Prop) (c c' : Call) : Prop where
  id : c'.id = c.id
  before : c'.point.Before → c.point.Before
  handler : ∀ d, c'.point.handler = some d → c.point.handler = some d ∧ ¬ R d

section

variable {filters : List FilterFn} {i : Nat} {filter : FilterByIDFn} {s s' : Requests}
  {e : RequestEvent} {ids : List Bytes}

/-- No new handler. -/
theorem Owned.onward (h : Owned i filter s) {R : Nat → Prop}
    (hp : Steady R s.pipeline s'.pipeline)
    (hcalls : ∀ (k : Nat) (c' : Call), s'.calls[k]? = some c' →
      ∃ c, s.calls[k]? = some c ∧ c.Onward R c') : Owned i filter s' where
  place := by
    intro d D' hd'
    obtain ⟨D, hd, hlater, _⟩ := hp.back d D' hd'
    obtain ⟨hstage, hfilter⟩ := h.place d D hd
    exact ⟨hlater.stage.trans hstage, by rw [hlater.filter, hfilter, hlater.id]⟩
  unique := by
    intro d₁ d₂ D₁' D₂' hd₁' hd₂' hid
    obtain ⟨D₁, hd₁, hlater₁, _⟩ := hp.back d₁ D₁' hd₁'
    obtain ⟨D₂, hd₂, hlater₂, _⟩ := hp.back d₂ D₂' hd₂'
    rw [hlater₁.id, hlater₂.id] at hid
    exact h.unique d₁ d₂ D₁ D₂ hd₁ hd₂ hid
  before := by
    intro k c' hk' hbefore d D' hd'
    obtain ⟨c, hk, hon⟩ := hcalls k c' hk'
    obtain ⟨D, hd, hlater, _⟩ := hp.back d D' hd'
    rw [hlater.id, hon.id]
    exact h.before k c hk (hon.before hbefore) d D hd
  own := by
    intro k c' d hk' hhandler
    obtain ⟨c, hk, hon⟩ := hcalls k c' hk'
    obtain ⟨hhandler, hread⟩ := hon.handler d hhandler
    obtain ⟨D, hd, hid, hreceived⟩ := h.own k c d hk hhandler
    obtain ⟨D', hd', hlater⟩ := hp.follows d D hd
    obtain ⟨D₁, hd₁, _, hsame⟩ := hp.back d D' hd'
    rw [hd] at hd₁
    cases hd₁
    exact ⟨D', hd', by rw [hlater.id, hid, hon.id], by rw [hsame hread, hreceived]⟩

/-- The calls after one of them has moved. -/
theorem onward_set {R : Nat → Prop} {k : Nat} {c : Call} {point : RequestPoint}
    (hk : s.calls[k]? = some c) (hmove : c.Onward R { c with point := point })
    (hothers : ∀ (k' : Nat) (c' : Call), k' ≠ k → s.calls[k']? = some c' →
      ∀ d, c'.point.handler = some d → ¬ R d) (k' : Nat) (c' : Call)
    (hk' : (s.calls.set k { c with point := point })[k']? = some c') :
    ∃ c₀, s.calls[k']? = some c₀ ∧ c₀.Onward R c' := by
  rcases getElem?_set_cases hk' with ⟨rfl, rfl⟩ | ⟨hne, hold⟩
  · exact ⟨c, hk, hmove⟩
  · exact ⟨c', hold, rfl, fun h => h, fun d hd => ⟨hd, hothers k' c' hne hold d hd⟩⟩

/-- Two calls do not share a handler. -/
theorem Owned.handler_unique (h : Owned i filter s) (hids : s.calls.map Call.id = ids)
    (hnodup : ids.Nodup) {k k' d : Nat} {c c' : Call} (hk : s.calls[k]? = some c)
    (hk' : s.calls[k']? = some c') (hd : c.point.handler = some d)
    (hd' : c'.point.handler = some d) : k' = k := by
  obtain ⟨D, hD, hid, _⟩ := h.own k c d hk hd
  obtain ⟨D', hD', hid', _⟩ := h.own k' c' d hk' hd'
  rw [hD] at hD'
  cases hD'
  exact call_unique hids hnodup hk' hk (hid'.symm.trans hid)

theorem Owned.register (h : Owned i filter s) (hids : s.calls.map Call.id = ids)
    (hnodup : ids.Nodup) {k : Nat} {c : Call} (hk : s.calls[k]? = some c)
    (hpoint : c.point = .register) {closed : Bool} {p : Pipeline}
    (hstep : Pipeline.Step filters s.pipeline (.register i c.id (filter c.id) true closed) p) :
    Owned i filter (s.setPoint k c p (.send s.pipeline.demuxes.length)) := by
  have hnew := h.before k c hk (by rw [hpoint]; trivial)
  cases hstep with
  | register _ _ _ _ _ =>
      refine ⟨fun d D hd => ?_, fun d d' D D' hd hd' hid => ?_, fun k' c' hk' hb d D hd => ?_,
        fun k' c' d hk' hhandler => ?_⟩
      · rcases getElem?_append_cases hd with hold | ⟨_, rfl⟩
        · exact h.place d D hold
        · exact ⟨rfl, rfl⟩
      · rcases getElem?_append_cases hd with hold | ⟨rfl, rfl⟩
        · rcases getElem?_append_cases hd' with hold' | ⟨_, rfl⟩
          · exact h.unique d d' D D' hold hold' hid
          · exact (hnew d D hold hid).elim
        · rcases getElem?_append_cases hd' with hold' | ⟨rfl, _⟩
          · exact (hnew d' D' hold' hid.symm).elim
          · rfl
      · rcases getElem?_set_cases hk' with ⟨_, rfl⟩ | ⟨hne, hold'⟩
        · exact hb.elim
        · rcases getElem?_append_cases hd with hold | ⟨_, rfl⟩
          · exact h.before k' c' hold' hb d D hold
          · exact fun heq => hne (call_unique hids hnodup hold' hk heq.symm)
      · rcases getElem?_set_cases hk' with ⟨_, rfl⟩ | ⟨_, hold'⟩
        · cases hhandler
          exact ⟨_, List.getElem?_concat_length, rfl, rfl⟩
        · obtain ⟨D, hd, hrest⟩ := h.own k' c' d hold' hhandler
          exact ⟨D, getElem?_append_some hd, hrest⟩

/-- The id of a call that has no handler yet is not in the table. -/
theorem Owned.not_found (h : Owned i filter s)
    (hreach : Reach (Pipeline.Step filters) (fun _ _ => True) .initial s.pipeline)
    {k : Nat} {c : Call} (hk : s.calls[k]? = some c) (hbefore : c.point.Before) {d : Nat}
    (hlook : (s.pipeline.stages i).table.lookup c.id = some d) : False := by
  obtain ⟨H, hH, _, hkey⟩ := (sound_of_reach hreach).fits.table i c.id d hlook
  simp only [Pipeline.view, List.getElem?_map, Option.map_eq_some_iff] at hH
  obtain ⟨D, hd, rfl⟩ := hH
  exact h.before k c hk hbefore d D hd hkey

theorem Owned.step (h : Owned i filter s) (hids : s.calls.map Call.id = ids)
    (hnodup : ids.Nodup)
    (hreach : Reach (Pipeline.Step filters) (fun _ _ => True) .initial s.pipeline)
    (hstep : Requests.Step filters i filter s e s') : Owned i filter s' := by
  have hquiet : ∀ {R : Nat → Prop}, (∀ d, ¬ R d) → ∀ (k : Nat) (c : Call),
      s.calls[k]? = some c → ∃ c₀, s.calls[k]? = some c₀ ∧ c₀.Onward R c :=
    fun hR k c hk => ⟨c, hk, rfl, fun h => h, fun d hd => ⟨hd, hR d⟩⟩
  cases hstep with
  | @pipeline ev p hkind hp =>
      refine h.onward (steady_of_step hp ?_) (hquiet ?_)
      · intro j id f r c heq
        subst heq
        exact hkind
      · rintro d ⟨m, rfl⟩
        exact hkind
  | found hk hp hlook => exact (h.not_found hreach hk (by rw [hp]; trivial) hlook).elim
  | missing hk hp _ =>
      refine h.onward (R := fun _ => False) (.refl _ _)
        (onward_set hk ⟨rfl, fun _ => by rw [hp]; trivial, fun d hd => by cases hd⟩ ?_)
      exact fun _ _ _ _ _ _ h => h
  | register closed hk hp hstep => exact h.register hids hnodup hk hp hstep
  | send hk hp _ =>
      refine h.onward (R := fun _ => False) (.refl _ _)
        (onward_set hk ⟨rfl, fun h => h.elim, fun d hd => ⟨by rw [hp]; exact hd, id⟩⟩ ?_)
      exact fun _ _ _ _ _ _ h => h
  | sendTimeout hk hp =>
      refine h.onward (R := fun _ => False) (.refl _ _)
        (onward_set hk ⟨rfl, fun h => h.elim, fun d hd => ⟨by rw [hp]; exact hd, id⟩⟩ ?_)
      exact fun _ _ _ _ _ _ h => h
  | recvDone hk hp _ _ =>
      refine h.onward (R := fun _ => False) (.refl _ _)
        (onward_set hk ⟨rfl, fun h => h.elim, fun d hd => ⟨by rw [hp]; exact hd, id⟩⟩ ?_)
      exact fun _ _ _ _ _ _ h => h
  | delete hk hp hstep =>
      refine h.onward (steady_of_step hstep (by simp))
        (onward_set hk ⟨rfl, fun h => h.elim, fun d hd => by cases hd⟩ ?_)
      rintro _ _ _ _ _ _ ⟨_, hev⟩
      cases hev
  | close hk hp hstep =>
      refine h.onward (steady_of_step hstep (by simp))
        (onward_set hk ⟨rfl, fun h => h.elim, fun d hd => by cases hd⟩ ?_)
      rintro _ _ _ _ _ _ ⟨_, hev⟩
      cases hev
  | recv hk hp hstep =>
      refine h.onward (steady_of_step hstep (by simp))
        (onward_set hk ⟨rfl, fun h => h.elim, fun d hd => by cases hd⟩ ?_)
      rintro k' c' hne hk' d hd ⟨_, hev⟩
      cases hev
      exact hne (h.handler_unique hids hnodup hk hk' (by rw [hp]; rfl) hd)
  | senderTake _ _ | sent _ | senderDone _ _ =>
      exact h.onward (R := fun _ => False) (.refl _ _) (hquiet fun _ h => h)
  | sendError _ hp =>
      refine h.onward (steady_of_step hp (by simp)) (hquiet ?_)
      rintro d ⟨m, hev⟩
      cases hev

/-! ## What a step of the calls does to the pipeline -/

/-- Where an event of the pipeline comes from. -/
structure Cause (i : Nat) (s : Requests) (e : RequestEvent) (ev : Event) : Prop where
  arrive : ∀ c, ev = .arrive c → e = .pipeline (.arrive c)
  register : ∀ j id f r b, ev = .register j id f r b →
    ∃ (k : Nat) (c : Call), s.calls[k]? = some c ∧ c.point = .register ∧ c.id = id
  remove : ∀ j id, ev = .remove j id →
    ∃ (k : Nat) (c : Call) (r : Except RequestErr Msg), s.calls[k]? = some c ∧ c.id = id ∧
      e = .returns k r

theorem pipeline_of_step (h : Requests.Step filters i filter s e s') :
    s'.pipeline = s.pipeline ∨
      ∃ ev, Pipeline.Step filters s.pipeline ev s'.pipeline ∧ Cause i s e ev := by
  cases h with
  | @pipeline ev p hkind hp =>
      refine .inr ⟨ev, hp, fun c hc => by rw [hc], ?_, ?_⟩
      · rintro j id f r b rfl
        exact hkind.elim
      · rintro j id rfl
        exact hkind.elim
  | @register k c p closed hk hpoint hp =>
      refine .inr ⟨_, hp, fun c hc => (by cases hc), ?_, fun j id hev => by cases hev⟩
      rintro j id f r b hev
      cases hev
      exact ⟨k, c, hk, hpoint, rfl⟩
  | @delete k d c p hk _ hp =>
      refine .inr ⟨_, hp, fun c hc => (by cases hc), fun j id f r b hev => (by cases hev), ?_⟩
      rintro j id hev
      cases hev
      exact ⟨k, c, _, hk, rfl, rfl⟩
  | recv _ _ hp | close _ _ hp | sendError _ hp =>
      exact .inr ⟨_, hp, fun c hc => (by cases hc), fun j id f r b hev => (by cases hev),
        fun j id hev => by cases hev⟩
  | _ => exact .inl rfl

/-- Where a call has its handler from. -/
theorem handler_of_step (h : Requests.Step filters i filter s e s') {k d : Nat} {c' : Call}
    (hk' : s'.calls[k]? = some c') (hd : c'.point.handler = some d) :
    ∃ c, s.calls[k]? = some c ∧ c.id = c'.id ∧
      ((c.point.handler = some d ∧ ∀ r, e ≠ .returns k r) ∨
      (c.point = .load ∧ (s.pipeline.stages i).table.lookup c.id = some d) ∨
      (c.point = .register ∧ (s'.pipeline.stages i).table.lookup c.id = some d)) := by
  -- The call that moves, and the others.
  have hmoved : ∀ {k₀ : Nat} {c : Call} {point : RequestPoint}, s.calls[k₀]? = some c →
      (s.calls.set k₀ { c with point := point })[k]? = some c' →
      (∀ r, e = .returns k r → k = k₀) →
      (k = k₀ ∧ c' = { c with point := point }) ∨
      ∃ c, s.calls[k]? = some c ∧ c.id = c'.id ∧
        ((c.point.handler = some d ∧ ∀ r, e ≠ .returns k r) ∨
        (c.point = .load ∧ (s.pipeline.stages i).table.lookup c.id = some d) ∨
        (c.point = .register ∧ (s'.pipeline.stages i).table.lookup c.id = some d)) := by
    intro k₀ c point _ hset hret
    rcases getElem?_set_cases hset with hsame | ⟨hne, hold⟩
    · exact .inl hsame
    · exact .inr ⟨c', hold, rfl, .inl ⟨hd, fun r hr => hne (hret r hr)⟩⟩
  cases h with
  | found hk hp hlook =>
      rcases hmoved hk hk' (fun r hr => by cases hr) with ⟨rfl, rfl⟩ | hother
      · cases hd
        exact ⟨_, hk, rfl, .inr (.inl ⟨hp, hlook⟩)⟩
      · exact hother
  | missing hk hp hlook =>
      rcases hmoved hk hk' (fun r hr => by cases hr) with ⟨rfl, rfl⟩ | hother
      · cases hd
      · exact hother
  | register closed hk hp hstep =>
      rcases hmoved hk hk' (fun r hr => by cases hr) with ⟨rfl, rfl⟩ | hother
      · cases hd
        refine ⟨_, hk, rfl, .inr (.inr ⟨hp, ?_⟩)⟩
        cases hstep with
        | register _ _ _ _ _ => simp [Requests.setPoint, Pipeline.setTable, Pipeline.setRun]
      · exact hother
  | send hk hp _ | sendTimeout hk hp | recvDone hk hp _ _ =>
      rcases hmoved hk hk' (fun r hr => by cases hr) with ⟨rfl, rfl⟩ | hother
      · exact ⟨_, hk, rfl, .inl ⟨by rw [hp]; exact hd, fun r hr => by cases hr⟩⟩
      · exact hother
  | delete hk hp _ | recv hk hp _ | close hk hp _ =>
      rcases hmoved hk hk' (fun r hr => by cases hr; rfl) with ⟨rfl, rfl⟩ | hother
      · cases hd
      · exact hother
  | _ => exact ⟨c', hk', rfl, .inl ⟨hd, fun r hr => by cases hr⟩⟩

/-! ## The handler stays in the table -/

/-- As long as neither its context nor the pipeline is cancelled, the handler of a call is in
the table. -/
def Listed (i : Nat) (s : Requests) : Prop :=
  ∀ (k : Nat) (c : Call) (d : Nat) (D : Demultiplexer), s.calls[k]? = some c →
    c.point.handler = some d → s.pipeline.demuxes[d]? = some D → D.closed = false →
    s.pipeline.cancelled = false → (s.pipeline.stages i).table.lookup c.id = some d

theorem Listed.step (h : Listed i s) (howned : Owned i filter s)
    (hids : s.calls.map Call.id = ids) (hnodup : ids.Nodup)
    (hreach : Reach (Pipeline.Step filters) (fun _ _ => True) .initial s.pipeline)
    (hstep : Requests.Step filters i filter s e s') : Listed i s' := by
  intro k c' d D' hk' hd hD' hopen hlive
  obtain ⟨c, hk, hid, hfrom⟩ := handler_of_step hstep hk' hd
  rw [← hid]
  rcases hfrom with ⟨hd₀, hret⟩ | ⟨hp, hlook⟩ | ⟨_, hlook⟩
  · obtain ⟨D, hD, hDid, _⟩ := howned.own k c d hk hd₀
    rcases pipeline_of_step hstep with heq | ⟨ev, hev, hcause⟩
    · rw [heq] at hD' hlive ⊢
      exact h k c d D' hk hd₀ hD' hopen hlive
    · -- What was cancelled would still be so.
      have hopen₀ : D.closed = false := by
        obtain ⟨D₁, hD₁, hlater⟩ := follows_of_step hev d D hD
        rw [hD'] at hD₁
        cases hD₁
        cases hc : D.closed with
        | false => rfl
        | true => exact absurd (hopen.symm.trans (hlater.closed hc)) (by simp)
      have hlive₀ : s.pipeline.cancelled = false := by
        cases hc : s.pipeline.cancelled with
        | false => rfl
        | true => exact absurd (hlive.symm.trans (cancelled_of_step hev hc)) (by simp)
      refine lookup_stays hev (settled_of_reach hreach)
        (h k c d D hk hd₀ hD hopen₀ hlive₀) hlive₀ ?_ ?_ ?_
      · intro n Dn hn hclosed heq
        have hnd := howned.unique n d Dn D hn hD (heq.trans hDid.symm)
        subst hnd
        rw [hD] at hn
        cases hn
        exact absurd (hopen₀.symm.trans hclosed) (by simp)
      · intro f r b heq
        obtain ⟨k₂, c₂, hk₂, hp₂, hid₂⟩ := hcause.register _ _ _ _ _ heq
        have hkk := call_unique hids hnodup hk₂ hk hid₂
        subst hkk
        rw [hk] at hk₂
        cases hk₂
        rw [hp₂] at hd₀
        cases hd₀
      · intro heq
        obtain ⟨k₂, c₂, r, hk₂, hid₂, her⟩ := hcause.remove _ _ heq
        have hkk := call_unique hids hnodup hk₂ hk hid₂
        subst hkk
        exact hret r her
  · exact (howned.not_found hreach hk (by rw [hp]; trivial) hlook).elim
  · exact hlook

/-! ## Answers come after the request -/

/-- The packet `sendPackets` has in its hand. -/
def SendPoint.hand : SendPoint → List Bytes
  | .send id => [id]
  | .select | .returned => []

/-- What calls have sent: the host has it, or it is on its way. -/
def Requests.outgoing (s : Requests) : List Bytes := s.sent ++ s.sender.hand ++ s.sendCh.items

/-- The host says nothing to a call before it has the call's packet. -/
def Answering (ids : List Bytes) (s : Requests) : RequestEvent → Prop
  | .pipeline (.arrive c) => c.buildId ∈ ids → c.buildId ∈ s.sent
  | _ => True

structure Asked (ids : List Bytes) (s : Requests) : Prop where
  quiet : ∀ (k : Nat) (c : Call), s.calls[k]? = some c → c.point.Unsent → c.id ∉ s.outgoing
  heard : ∀ m ∈ s.pipeline.arrived, m.packet.buildId ∈ ids → m.packet.buildId ∈ s.sent
  early : ∀ (d : Nat) (D : Demultiplexer), s.pipeline.demuxes[d]? = some D → s.pipeline.Early D

theorem sent_of_step (h : Requests.Step filters i filter s e s') {id : Bytes} (hid : id ∈ s.sent) :
    id ∈ s'.sent := by
  cases h with
  | sent _ => exact List.mem_append_left _ hid
  | _ => exact hid

theorem Asked.quiet_step (h : Asked ids s) (hids : s.calls.map Call.id = ids) (hnodup : ids.Nodup)
    (hstep : Requests.Step filters i filter s e s') (k : Nat) (c : Call)
    (hk : s'.calls[k]? = some c) (hun : c.point.Unsent) : c.id ∉ s'.outgoing := by
  cases hstep with
  | pipeline _ _ => exact h.quiet k c hk hun
  | missing hk₀ hp _ =>
      rcases getElem?_set_cases hk with ⟨rfl, rfl⟩ | ⟨_, hold⟩
      · have hold := h.quiet k _ hk₀ (by rw [hp]; trivial)
        exact hold
      · exact h.quiet k c hold hun
  | register _ hk₀ hp _ =>
      rcases getElem?_set_cases hk with ⟨rfl, rfl⟩ | ⟨_, hold⟩
      · have hold := h.quiet k _ hk₀ (by rw [hp]; trivial)
        exact hold
      · exact h.quiet k c hold hun
  | found hk₀ _ _ | sendTimeout hk₀ _ | delete hk₀ _ _ | recv hk₀ _ _ | recvDone hk₀ _ _ _
  | close hk₀ _ _ =>
      rcases getElem?_set_cases hk with ⟨rfl, rfl⟩ | ⟨_, hold⟩
      · exact hun.elim
      · exact h.quiet k c hold hun
  | @send k₀ d c₀ ch hk₀ hp hsend =>
      rcases getElem?_set_cases hk with ⟨rfl, rfl⟩ | ⟨hne, hold⟩
      · exact hun.elim
      · have hold' := h.quiet k c hold hun
        have hother : c.id ≠ c₀.id := fun heq => hne (call_unique hids hnodup hold hk₀ heq)
        simp only [Requests.outgoing, Requests.setPoint, Chan.items_of_send hsend,
          List.mem_append, List.mem_singleton] at hold' ⊢
        rintro (hout | hch | heq)
        · exact hold' (.inl hout)
        · exact hold' (.inr hch)
        · exact hother heq
  | senderTake hp hrecv =>
      have hold := h.quiet k c hk hun
      simp only [Requests.outgoing, hp, SendPoint.hand, Chan.items_of_recv hrecv] at hold ⊢
      simpa using hold
  | sent hp =>
      have hold := h.quiet k c hk hun
      simp only [Requests.outgoing, hp, SendPoint.hand] at hold ⊢
      simpa using hold
  | sendError hp _ =>
      have hold := h.quiet k c hk hun
      simp only [Requests.outgoing, hp, SendPoint.hand, List.mem_append] at hold ⊢
      rintro ((hsent | hnil) | hch)
      · exact hold (.inl (.inl hsent))
      · cases hnil
      · exact hold (.inr hch)
  | senderDone hp _ =>
      have hold := h.quiet k c hk hun
      simp only [Requests.outgoing, hp, SendPoint.hand] at hold ⊢
      exact hold

/-- What had arrived when a handler was registered does not change. -/
theorem Early.step {p p' : Pipeline} {ev : Event} (h : Pipeline.Step filters p ev p')
    {D D' : Demultiplexer} (hearly : p.Early D) (hsince : D.since ≤ p.arrived.length)
    (hlater : D.Later D') : p'.Early D' := by
  intro m hm
  rw [hlater.id]
  rw [hlater.since] at hm
  rcases arrived_of_step h with heq | ⟨c, _, heq⟩
  · rw [heq] at hm
    exact hearly m hm
  · rw [heq, List.take_append_of_le_length hsince] at hm
    exact hearly m hm

theorem Asked.step (h : Asked ids s) (hids : s.calls.map Call.id = ids) (hnodup : ids.Nodup)
    (hreach : Reach (Pipeline.Step filters) (fun _ _ => True) .initial s.pipeline)
    (he : Answering ids s e) (hstep : Requests.Step filters i filter s e s') : Asked ids s' := by
  refine ⟨h.quiet_step hids hnodup hstep, fun m hm hmem => ?_, fun d D' hD' => ?_⟩
  · refine sent_of_step hstep ?_
    rcases pipeline_of_step hstep with heq | ⟨ev, hev, hcause⟩
    · rw [heq] at hm
      exact h.heard m hm hmem
    · rcases arrived_of_step hev with heq | ⟨c, hc, heq⟩
      · rw [heq] at hm
        exact h.heard m hm hmem
      · rw [heq, List.mem_append, List.mem_singleton] at hm
        rcases hm with hm | rfl
        · exact h.heard m hm hmem
        · rw [hcause.arrive c hc] at he
          exact he hmem
  · rcases pipeline_of_step hstep with heq | ⟨ev, hev, hcause⟩
    · rw [heq] at hD' ⊢
      exact h.early d D' hD'
    · by_cases hreg : ∃ j id f r b, ev = .register j id f r b
      · obtain ⟨j, id, f, r, b, rfl⟩ := hreg
        obtain ⟨k, c, hk, hp, rfl⟩ := hcause.register _ _ _ _ _ rfl
        generalize s'.pipeline = p' at hev hD'
        cases hev with
        | register _ _ _ _ _ =>
            rcases getElem?_append_cases hD' with hold | ⟨_, rfl⟩
            · exact h.early d D' hold
            · -- Whatever has arrived was for others: this call has sent nothing yet.
              intro m hm heq
              have hm' : m ∈ s.pipeline.arrived := List.mem_of_mem_take hm
              have hcid : c.id ∈ ids := by
                rw [← hids]
                exact List.mem_map_of_mem (List.mem_of_getElem? hk)
              have hid : m.packet.buildId = c.id := heq
              have hsent := h.heard m hm' (hid ▸ hcid)
              refine h.quiet k c hk (by rw [hp]; trivial) ?_
              rw [hid] at hsent
              exact List.mem_append_left _ (List.mem_append_left _ hsent)
      · have hsteady := steady_of_step hev fun j id f r b heq => hreg ⟨j, id, f, r, b, heq⟩
        obtain ⟨D, hD, hlater, _⟩ := hsteady.back d D' hD'
        have hsince := (sound_of_reach hreach).fits.since d D.view (view_handler hD)
        exact Early.step hev (h.early d D hD) hsince hlater

end

/-! ## The answers of a call -/

/-- The packets with the id that the stage's filter accepts, in the order they arrived. -/
def Requests.answers (f : FilterFn) (s : Requests) (id : Bytes) : List Msg :=
  s.pipeline.arrived.filter fun m => f m.packet = none ∧ m.packet.buildId = id

section

variable {filters : List FilterFn} {i : Nat} {filter : FilterByIDFn} {s : Requests}
  {ids : List Bytes}

theorem invariants_of_reach (hnodup : ids.Nodup)
    (hrun : Reach (Requests.Step filters i filter) (Answering ids) (.initial ids) s) :
    Owned i filter s ∧ Listed i s ∧ Asked ids s ∧ s.calls.map Call.id = ids := by
  have hinv : Reach (Pipeline.Step filters) (fun _ _ => True) .initial s.pipeline ∧
      Owned i filter s ∧ Listed i s ∧ Asked ids s ∧ s.calls.map Call.id = ids := by
    refine hrun.invariant (I := fun s =>
      Reach (Pipeline.Step filters) (fun _ _ => True) .initial s.pipeline ∧
      Owned i filter s ∧ Listed i s ∧ Asked ids s ∧ s.calls.map Call.id = ids) ?_ ?_
    · have hload : ∀ (k : Nat) (c : Call), (Requests.initial ids).calls[k]? = some c →
          c.point = .load := by
        intro k c hk
        rw [Requests.initial, List.getElem?_map, Option.map_eq_some_iff] at hk
        obtain ⟨id, _, rfl⟩ := hk
        rfl
      refine ⟨.refl _, ⟨?_, ?_, ?_, ?_⟩, ?_, ⟨?_, ?_, ?_⟩, initial_ids ids⟩
      · intro d D hd
        cases hd
      · intro d d' D D' hd
        cases hd
      · intro k c _ _ d D hd
        cases hd
      · intro k c d hk hd
        rw [hload k c hk] at hd
        cases hd
      · intro k c d D _ _ hd
        cases hd
      · intro k c _ _ hout
        cases hout
      · intro m hm
        cases hm
      · intro d D hd
        cases hd
    · rintro s e s' ⟨hreach, howned, hlisted, hasked, hids⟩ he hstep
      refine ⟨?_, howned.step hids hnodup hreach hstep,
        hlisted.step howned hids hnodup hreach hstep, hasked.step hids hnodup hreach he hstep,
        (calls_ids_step hstep).trans hids⟩
      rcases pipeline_of_step hstep with heq | ⟨ev, hev, _⟩
      · rw [heq]
        exact hreach
      · exact hreach.tail trivial hev
  exact hinv.2

/-- For the handler of a call, the packets meant for it are the answers of the call. -/
theorem filter_meant {f : FilterFn} (hfilter : ∀ id c, c.buildId = id → filter id c = none)
    {D : Demultiplexer} (hD : D.filter = filter D.id) {id : Bytes} (hid : D.id = id)
    (ms : List Msg) :
    ms.filter (Meant f D) = ms.filter fun m => f m.packet = none ∧ m.packet.buildId = id := by
  apply List.filter_congr
  intro m _
  apply decide_eq_decide.mpr
  constructor
  · rintro ⟨hf, hm, _⟩
    exact ⟨hf, hm.trans hid⟩
  · rintro ⟨hf, hm⟩
    exact ⟨hf, hm.trans hid.symm, by rw [hD]; exact hfilter _ _ (hm.trans hid.symm)⟩

end

/-- Calls with distinct ids, a host that speaks to a call only after it has its packet: no
call returns a packet with another id; a call whose context is not cancelled, and that has
not failed to send, returns the first of its answers; and while it waits, all its answers
are in its handler's channel or on their way there. -/
theorem own_answer (filters : List FilterFn) (hdis : DisjointFilters filters) (i : Nat)
    (f : FilterFn) (hf : filters[i]? = some f) (filter : FilterByIDFn)
    (hfilter : ∀ id c, c.buildId = id → filter id c = none) (ids : List Bytes)
    (hnodup : ids.Nodup) (s : Requests)
    (hrun : Reach (Requests.Step filters i filter) (Answering ids) (.initial ids) s)
    (k : Nat) (c : Call) (hk : s.calls[k]? = some c) :
    (∀ (m : Msg) (s' : Requests), Requests.Step filters i filter s (.returns k (.ok m)) s' →
      m.packet.buildId = c.id) ∧
    (∀ (d : Nat) (D : Demultiplexer), c.point.handler = some d →
      s.pipeline.demuxes[d]? = some D → D.closed = false →
      (∀ (r : Except RequestErr Msg) (s' : Requests),
        Requests.Step filters i filter s (.returns k r) s' → r ≠ .error .sendStreamBlocked →
        ∃ m, r = .ok m ∧ (s.answers f c.id).head? = some m) ∧
      (s.pipeline.cancelled = false →
        D.ch.items ++ (s.pipeline.pending i).filter
            (fun m => f m.packet = none ∧ m.packet.buildId = c.id) =
          s.answers f c.id)) := by
  have hreach := reach_pipeline hrun
  have hsound := sound_of_reach hreach
  obtain ⟨howned, hlisted, hasked, _⟩ := invariants_of_reach hnodup hrun
  refine ⟨fun m s' hstep => ?_, fun d D hd hD hopen => ?_⟩
  · obtain ⟨d, D, hd, hD, ⟨herr, _⟩ | ⟨m', ch, hm, hrecv⟩⟩ :=
      (hstep.of_returns hk).resolve_left (by simp)
    · cases herr
    · cases hm
      obtain ⟨D', hD', hid, _⟩ := howned.own k c d hk hd
      rw [hD] at hD'
      cases hD'
      have hmem : m ∈ D.view.accepted := by
        refine List.mem_append_right _ ?_
        rw [Chan.items_of_recv hrecv]
        exact List.mem_cons_self
      exact (hsound.once.taken d D.view (view_handler hD) m hmem).2.1.trans hid
  · obtain ⟨D', hD', hid, hreceived⟩ := howned.own k c d hk hd
    rw [hD] at hD'
    cases hD'
    obtain ⟨hstage, hDf⟩ := howned.place d D hD
    have hf' : filters[D.stage]? = some f := by rw [hstage, hf]
    have hin := hsound.delivered d D.view (view_handler hD) hopen (hasked.early d D hD)
    have hexp : Router.expected Msg.buildId (Msg.stage filters) s.pipeline.view D.view =
        s.answers f c.id :=
      (filter_mine hdis hf' _).trans (filter_meant hfilter hDf hid _)
    have hacc : D.view.accepted = D.ch.items := by
      simp only [Demultiplexer.view, Demultiplexer.accepted, hreceived, List.nil_append]
    refine ⟨fun r s' hstep hsend => ?_, fun hlive => ?_⟩
    · obtain ⟨d', D', hd', hD', hend⟩ := (hstep.of_returns hk).resolve_left hsend
      rw [hd] at hd'
      cases hd'
      rw [hD] at hD'
      cases hD'
      rcases hend with ⟨_, hclosed⟩ | ⟨m, ch, rfl, hrecv⟩
      · exact absurd (hopen.symm.trans hclosed) Bool.false_ne_true
      · obtain ⟨rest, hrest⟩ := hin.front
        rw [hexp, hacc, Chan.items_of_recv hrecv] at hrest
        refine ⟨m, rfl, ?_⟩
        rw [← hrest]
        rfl
    · have hlook := hlisted k c d D hk hd hD hopen hlive
      rw [← hid, ← hstage] at hlook
      have hwhole := hin.whole (.inl hlook)
      rw [hexp, hacc, filter_mine hdis hf', filter_meant hfilter hDf hid] at hwhole
      rw [← hstage]
      exact hwhole

/-- A run to the point where a call waits and its answer is in the channel. -/
theorem reach_waiting :
    ∃ (s : Requests) (D : Demultiplexer) (ch : Chan Msg 32),
      Reach (Requests.Step transferFilters 0 filterByBuildID) (Answering [lit "r"])
        (.initial [lit "r"]) s ∧
      s.calls[0]? = some ⟨lit "r", .recv 0⟩ ∧ s.pipeline.demuxes[0]? = some D ∧
      D.closed = false ∧ D.ch.recv = some (⟨0, contentAnswer⟩, ch) := by
  have h : Reach (Requests.Step transferFilters 0 filterByBuildID) (Answering [lit "r"])
      (.initial [lit "r"]) (.initial [lit "r"]) := .refl _
  have h := h.tail (by trivial) (.missing (k := 0) rfl rfl rfl)
  have h := h.tail (by trivial) (.register false (k := 0) rfl rfl (.register _ _ _ _ _))
  have h := h.tail (by trivial) (.send (k := 0) rfl rfl rfl)
  have h := h.tail (by trivial) (.senderTake rfl rfl)
  have h := h.tail (by trivial) (.sent rfl)
  have h := h.tail (by exact fun hid => hid) (.pipeline (by trivial) (.arrive contentAnswer rfl))
  have h := h.tail (by trivial) (.pipeline (by trivial) (.process rfl rfl))
  have h := h.tail (by trivial) (.pipeline (by trivial) (.run 0 (by decide) (.take rfl rfl)))
  have h := h.tail (by trivial) (.pipeline (by trivial) (.run 0 (by decide) (.load rfl rfl)))
  have h := h.tail (by trivial)
    (.pipeline (by trivial) (.run 0 (by decide) (.opened rfl rfl rfl)))
  have h := h.tail (by trivial)
    (.pipeline (by trivial) (.run 0 (by decide) (.accept rfl rfl rfl rfl)))
  exact ⟨_, _, _, h, rfl, rfl, rfl, rfl⟩

/-- That call returns its answer. -/
theorem own_answer_one :
    ∃ s, Reach (Requests.Step transferFilters 0 filterByBuildID) (Answering [lit "r"])
        (.initial [lit "r"]) s ∧
      (∃ s', Requests.Step transferFilters 0 filterByBuildID s
        (.returns 0 (.ok ⟨0, contentAnswer⟩)) s') ∧
      (s.answers contentStoreFilter (lit "r")).head? = some ⟨0, contentAnswer⟩ := by
  obtain ⟨s, D, ch, hrun, hk, hD, hopen, hrecv⟩ := reach_waiting
  have hown := own_answer _ transferFilters_disjoint 0 contentStoreFilter rfl filterByBuildID
    (fun _ _ hid => filterByBuildID_eq_none.mpr hid) _ (List.nodup_singleton _) s hrun 0 _ hk
  obtain ⟨m, hm, hhead⟩ := (hown.2 0 D rfl hD hopen).1 _ _
    (.recv hk rfl (.receive 0 hD hrecv)) (by simp)
  cases hm
  exact ⟨s, hrun, ⟨_, .recv hk rfl (.receive 0 hD hrecv)⟩, hhead⟩

end BuilderShim.Stream
