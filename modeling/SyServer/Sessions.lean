import SyServer.Links

/-! # The worker's sessions

A step of the worker is a step of one session at most, next to changes of the shared data:
`step_sessions`.  So an invariant of a session (`Invariant`) holds of every open session in every
state a worker reaches, as long as the steps meet the invariant's condition: `Reached.sessions`. -/

namespace SyServer

open Transition (Reach)

/-- A step of a session in `own`, or none; then a change of what is still to be served, and of the
shared data. -/
def View.Follows (cfg : Config) (own : SessionEvent → Prop) (w w' : View) : Prop :=
  ∃ w₁ b g, (w₁ = w ∨ ∃ ev, own ev ∧ w.step cfg ev = some w₁) ∧
    (b = w₁.pend ∨ (b = true → w₁.s.c.evIn = true)) ∧ w' = ⟨b, w₁.s.share g⟩

/-- What its own steps, a poll and a change of the shared data keep. -/
theorem View.Follows.keeps {cfg : Config} {P : Bool → Session → Prop} {own : SessionEvent → Prop}
    {w w' : View} (h : w.Follows cfg own w') (hw : P w.pend w.s)
    (hstep : ∀ ev w₁, own ev → w.step cfg ev = some w₁ → P w₁.pend w₁.s)
    (hpoll : ∀ p b s, (b = true → s.c.evIn = true) → P p s → P b s)
    (hshare : ∀ p s g, P p s → P p (s.share g)) : P w'.pend w'.s := by
  obtain ⟨w₁, b, g, hown, hpend, rfl⟩ := h
  have h₁ : P w₁.pend w₁.s := by
    rcases hown with rfl | ⟨ev, hev, hstep'⟩
    · exact hw
    · exact hstep ev w₁ hev hstep'
  apply hshare
  rcases hpend with rfl | hin
  · exact h₁
  · exact hpoll _ _ _ hin h₁

theorem Invariant.follows {cfg : Config} {good : View → SessionEvent → Prop}
    {I : Bool → Session → Prop} {J : Session → Prop} (hI : Invariant cfg good I J)
    {own : SessionEvent → Prop} {w w' : View} (hb : Base w.pend w.s) (hi : I w.pend w.s)
    (hgood : ∀ ev, own ev → good w ev) (h : w.Follows cfg own w') :
    Base w'.pend w'.s ∧ I w'.pend w'.s := by
  refine h.keeps (P := fun p s => Base p s ∧ I p s) ⟨hb, hi⟩ ?_ ?_ ?_
  · exact fun ev w₁ hev hstep => hI.step hb hi (hgood ev hev) hstep
  · exact fun p b s hin h => ⟨base_poll h.1 hin, hI.poll _ _ _ h.1 hin h.2⟩
  · exact fun p s g h => ⟨base_share h.1 g, hI.share _ _ g h.2⟩

namespace Server

/-! ### What is still to be served -/

/-- The entries of `events[]` are open connections, each once, and an `EPOLLOUT` that was
reported is still waited for. -/
structure Batched (v : Server) : Prop where
  live : ∀ a i o, .conn a i o ∈ v.batch.getD [] → v.Live a
  nodup : ((v.batch.getD []).filterMap Item.addr).Nodup
  out : ∀ a i, .conn a i true ∈ v.batch.getD [] → (v.conns a).evOut = true

theorem pend_iff {v : Server} {a : ConnAddr} :
    v.pend a = true ↔ ∃ o, .conn a true o ∈ v.batch.getD [] := by
  unfold pend
  rw [List.any_eq_true]
  constructor
  · rintro ⟨i, hi, hd⟩
    rcases of_decide_eq_true hd with rfl | rfl
    · exact ⟨_, hi⟩
    · exact ⟨_, hi⟩
  · rintro ⟨o, ho⟩
    refine ⟨_, ho, decide_eq_true ?_⟩
    cases o
    · exact .inl rfl
    · exact .inr rfl

/-- The connection of the entry at the head is in no later entry. -/
theorem Batched.head {v : Server} {a : ConnAddr} {i o : Bool} {rest : List Item} (hb : v.Batched)
    (h : v.batch = some (.conn a i o :: rest)) (i' o' : Bool) : .conn a i' o' ∉ rest := by
  have hn := hb.nodup
  rw [h] at hn
  intro hmem
  exact (List.nodup_cons.mp hn).1 (List.mem_filterMap.mpr ⟨_, hmem, rfl⟩)

/-! ### A handler -/

section handle

variable {cfg : Config} {v : Server} {a f : ConnAddr} {isIn : Bool} {t : Clock} {e : Env}

/-- What an event asks of a session. -/
def Enabled (w : View) (isIn : Bool) : Side → Prop
  | .front => if isIn then w.pend = true else w.s.c.evOut = true
  | .back => w.s.r.uc ≠ none ∧ (isIn = false → w.s.u.evOut = true)

/-- A handler is a step of its session. -/
theorem handler_step (cfg : Config) {w : View} (hb : Base w.pend w.s) (hp : w.s.g.pool.Ok) (side : Side)
    (hen : Enabled w isIn side) :
    (∃ p, (side = .back ∨ isIn = false → p = w.pend) ∧
      w.step cfg (eventOf isIn e side) = some ⟨p, (handler cfg e w.s isIn side).2⟩) ∧
    Frame w.s (handler cfg e w.s isIn side).2 ∧
    (side = .back ∨ isIn = true →
      w.s.c.evOut = true → (handler cfg e w.s isIn side).2.c.evOut = true) ∧
    (side = .front ∨ isIn = true → w.s.r.uc ≠ none →
      w.s.u.evOut = true → (handler cfg e w.s isIn side).2.u.evOut = true) := by
  obtain ⟨p, s⟩ := w
  cases side with
  | front =>
      cases isIn with
      | true =>
          have hpend : p = true := hen
          subst hpend
          obtain ⟨hf, hk⟩ := frame_handleRequest cfg (e := e) hb hp
          exact ⟨⟨false, (by rintro (h | h) <;> cases h), rfl⟩, hf, fun _ => hk.front, fun _ => hk.back⟩
      | false =>
          have hout : s.c.evOut = true := hen
          refine ⟨⟨p, fun _ => rfl, if_pos hout⟩, ?_⟩
          rcases settle_cases s (handleResponse e s) with h | ⟨rc, h⟩
          · show Frame s (settle s (handleResponse e s)).2 ∧ _
            rw [handler, if_neg (by simp), h]
            exact ⟨.refl hp, (by rintro (h | h) <;> cases h), fun _ _ => id⟩
          · obtain ⟨hf, hk⟩ := frame_response hp (handleResponse_move hb.sb h)
            exact ⟨hf, (by rintro (h | h) <;> cases h), fun _ _ => hk⟩
  | back =>
      obtain ⟨huc, hout⟩ := hen
      cases isIn with
      | true =>
          refine ⟨⟨p, fun _ => rfl, if_pos huc⟩, ?_⟩
          rcases settle_cases s (handleUpstream e s) with h | ⟨rc, h⟩
          · show Frame s (settle s (handleUpstream e s)).2 ∧ _
            rw [handler, if_pos rfl, h]
            exact ⟨.refl hp, fun _ => id, fun _ _ => id⟩
          · obtain ⟨hf, hk⟩ := frame_upstream hp (handleUpstream_move h)
            exact ⟨hf, fun _ => hk.front, fun _ => hk.back⟩
      | false =>
          refine ⟨⟨p, fun _ => rfl, if_pos ⟨huc, hout rfl⟩⟩, ?_⟩
          rcases settle_cases s (handlePass e s) with h | ⟨rc, h⟩
          · show Frame s (settle s (handlePass e s)).2 ∧ _
            rw [handler, if_neg (by simp), h]
            exact ⟨.refl hp, fun _ => id, (by rintro (h | h) <;> cases h)⟩
          · obtain ⟨hf, hk⟩ := frame_pass hp (handlePass_move hb.rb h)
            exact ⟨hf, fun _ => hk, (by rintro (h | h) <;> cases h)⟩

/-- The state behind a handler of the connection `a`, whose front connection is `f`. -/
structure Served (cfg : Config) (v : Server) (a : ConnAddr) (isIn : Bool) (e : Env) (f : ConnAddr)
    (v' : Server) : Prop where
  wired : v'.Wired
  batch : v'.batch = v.batch
  front : ∀ b, v'.Front b → v.Front b
  live : ∀ x, v.Live x → v'.Live x
  own : ∃ p s, ((v.conns a).side = .back ∨ isIn = false → p = v.pend f) ∧
    (v.view f).step cfg (eventOf isIn e (v.conns a).side) = some ⟨p, s⟩ ∧
    v'.session (v'.conns f).r = s.share v'.g
  others : ∀ b, v.Front b → b ≠ f → Aside v v' b
  out : ∀ x, v.Live x → isIn = true ∨ x ≠ a → (v.conns x).evOut = true → (v'.conns x).evOut = true

/-- The front connection behind an open connection, and its request. -/
theorem Wired.frontOf (hw : v.Wired) (ha : v.Live a) :
    v.Front (v.frontOf a) ∧ (v.conns (v.frontOf a)).r = (v.conns a).r ∧
      ((v.conns a).side = .front → v.frontOf a = a) ∧
      ((v.conns a).side = .back → (v.reqs (v.conns a).r).uc = some a) := by
  unfold Server.frontOf
  cases hs : (v.conns a).side with
  | front => exact ⟨⟨ha, hs⟩, rfl, fun _ => rfl, (fun h => by cases h)⟩
  | back =>
      obtain ⟨f, hf, hr, huc⟩ := hw.back a ha hs
      have hc : (v.reqs (v.conns a).r).c = f := by
        rw [← hr]
        exact (hw.front f hf).2
      dsimp only
      rw [hc]
      exact ⟨hf, hr, (fun h => by cases h), fun _ => huc⟩

/-- Setting the times is no change of the memory. -/
theorem finish_same (cfg : Config) (err : Except Fault Rc) (now : ℤ) :
    SameMemory v { v.finish cfg t a err with now := now } ∧ (v.finish cfg t a err).batch = v.batch := by
  cases err with
  | error _ => exact ⟨⟨rfl, rfl, rfl, rfl, rfl⟩, rfl⟩
  | ok rc =>
      have hactivate : ∀ rc, rc ≠ .error → v.finish cfg t a (.ok rc) = v.activate t a := by
        intro rc hrc
        cases rc <;> first | rfl | exact absurd rfl hrc
      by_cases hrc : rc = .error
      · subst hrc
        exact ⟨⟨rfl, rfl, rfl, rfl, rfl⟩, rfl⟩
      · rw [hactivate rc hrc]
        exact ⟨⟨rfl, rfl, rfl, rfl, rfl⟩, rfl⟩

/-- **A handler of an open connection.** -/
theorem handle_spec (cfg : Config) (hw : v.Wired) (ha : v.Live a) (hf : v.frontOf a = f)
    (hbase : Base (v.view f).pend (v.view f).s) (htidy : Tidy (v.view f).pend (v.view f).s)
    (hen : Enabled (v.view f) isIn (v.conns a).side) :
    Served cfg v a isIn e f (v.handle cfg isIn t e a) := by
  subst hf
  obtain ⟨hff, hfr, hself, hup⟩ := hw.frontOf ha
  have hview : v.session (v.conns a).r = (v.view (v.frontOf a)).s := by
    show _ = v.session (v.conns (v.frontOf a)).r
    rw [hfr]
  obtain ⟨⟨p, hp, hstep⟩, hframe, hout, hback⟩ := handler_step cfg (e := e) hbase hw.pool
    (v.conns a).side hen
  rw [← hview] at hstep hframe hout hback
  obtain ⟨err, s, hrun⟩ : ∃ err s,
      handler cfg e (v.session (v.conns a).r) isIn (v.conns a).side = (err, s) := ⟨_, _, rfl⟩
  rw [hrun] at hstep hframe hout hback
  have hh : Handled v (v.frontOf a) s := ⟨hw, hff, by rw [hfr]; exact hframe⟩
  have htidy' : s.r.uc = none → s.u = .unset :=
    ((invariant_tidy cfg).step hbase htidy trivial hstep).2
  unfold handle
  rw [hrun]
  obtain ⟨hsame, hbatch⟩ := finish_same cfg (v := v.store s) (a := a) (t := t) err t.touchBack
  refine ⟨hsame.wired (wired_store hh), hbatch, fun b hb => ?_, fun x hx => ?_, ⟨p, s, hp, hstep, ?_⟩,
    fun b hb hbf => ?_, fun x hx hxa hxo => ?_⟩
  · exact (store_front hh b).mp ((hsame.front b).mp hb)
  · exact (hsame.live x).mpr ((hh.live x).mpr (.inr hx))
  · have hr : (v.store s).session ((v.store s).conns (v.frontOf a)).r = s := by
      have hsr : s.c.r = (v.conns (v.frontOf a)).r :=
        hh.frame.cr.trans (congrArg Connection.r hh.session_c)
      rw [store_conns_self hh, hsr]
      exact store_session hh htidy'
    rw [hsame.conns, hsame.session, hr]
  · exact (store_aside hh hb hbf).trans (hsame.aside ((hsame.front b).mpr ((store_front hh b).mpr hb)))
  · rw [hsame.conns]
    have hsc : (v.session (v.conns a).r).c = v.conns (v.frontOf a) := by
      rw [← hfr]
      exact hh.session_c
    by_cases hxf : x = v.frontOf a
    · subst hxf
      rw [store_conns_self hh]
      rw [← hsc] at hxo
      refine hout ?_ hxo
      by_cases hside : (v.conns a).side = .back
      · exact .inl hside
      · have hfront : (v.conns a).side = .front := by
          cases hs : (v.conns a).side
          · rfl
          · exact absurd hs hside
        exact .inr (hxa.resolve_right fun h => h (hself hfront))
    · by_cases hxu : s.r.uc = some x
      · rw [store_conns_up hxu]
        obtain ⟨-, -, ⟨hold, -⟩ | ⟨-, hnot⟩⟩ := hh.up hxu
        · have hold : (v.reqs (v.conns a).r).uc = some x := hfr ▸ hold
          rw [← session_u hold] at hxo
          refine hback ?_ (fun h => ?_) hxo
          · cases hs : (v.conns a).side with
            | front => exact .inl rfl
            | back =>
                have hxa' : x = a := Option.some.inj (hold.symm.trans (hup hs))
                exact .inr (hxa.resolve_right fun h => h hxa')
          · have h : (v.reqs (v.conns a).r).uc = none := h
            rw [hold] at h
            cases h
        · exact absurd hx hnot
      · rw [store_conns_ne hh hxf hxu]
        exact hxo

end handle

/-! ### A step of the worker -/

section step

variable {cfg : Config} {v v' : Server} {l : Label}

/-- What a step leaves of the open sessions. -/
structure Steps (cfg : Config) (v : Server) (l : Label) (v' : Server) : Prop where
  wired : v'.Wired
  batched : v'.Batched
  sessions : ∀ b, v'.Front b →
    v.Front b ∧ (v.view b).Follows cfg (fun ev => v.event cfg l = some (b, ev)) (v'.view b) ∨ (v'.view b).Init

/-- A session that no handler touched. -/
theorem Aside.follows {own : SessionEvent → Prop} {b : ConnAddr} (h : Aside v v' b)
    (hw : v.Wired) (hpend : v'.pend b = v.pend b ∨ (v'.pend b = true → (v.conns b).evIn = true)) :
    (v.view b).Follows cfg own (v'.view b) := by
  refine ⟨v.view b, v'.pend b, v'.g, .inl rfl, ?_, ?_⟩
  · rcases hpend with h1 | h1
    · exact .inl h1
    · refine .inr fun h2 => ?_
      show (v.conns (v.reqs (v.conns b).r).c).evIn = true
      rw [(hw.front b h.front).2]
      exact h1 h2
  · show View.mk (v'.pend b) (v'.session (v'.conns b).r) = _
    rw [h.conns, h.session]
    rfl

/-- A step that changes nothing but what is to be served, and the times. -/
theorem SameMemory.steps (hs : SameMemory v v') (hw : v.Wired) (hb : v'.Batched)
    (hpend : ∀ b, v.Front b → v'.pend b = v.pend b ∨ (v'.pend b = true → (v.conns b).evIn = true)) :
    Steps cfg v l v' := by
  refine ⟨hs.wired hw, hb, fun b hbf => .inl ?_⟩
  have haside := hs.aside hbf
  exact ⟨haside.front, haside.follows hw (hpend b haside.front)⟩

theorem steps_poll {items : List Item} (hw : v.Wired) (hrep : v.Reportable items) :
    Steps cfg v l { v with batch := some items } := by
  obtain ⟨hall, hnodup⟩ := hrep
  refine SameMemory.steps ⟨rfl, rfl, rfl, rfl, rfl⟩ hw ⟨fun a i o h => (hall _ h).1, hnodup,
    fun a i h => (hall _ h).2.2 rfl⟩ fun b _ => .inr fun hp => ?_
  obtain ⟨o, ho⟩ := pend_iff.mp hp
  exact (hall _ ho).2.1 rfl

theorem steps_accept (hw : v.Wired) (hb : v.Batched) (o : Opening) :
    Steps cfg v l (v.openConnection o) := by
  have h := openConnection_spec hw o
  have hpend : ∀ b, (v.openConnection o).pend b = v.pend b := by
    intro b
    unfold pend
    rw [h.batch]
  refine ⟨h.wired, ⟨fun a i o' hm => ?_, ?_, fun a i hm => ?_⟩, fun b hbf => ?_⟩
  · rw [h.batch] at hm
    exact (h.kept a (hb.live a i o' hm)).1
  · rw [h.batch]
    exact hb.nodup
  · rw [h.batch] at hm
    rw [(h.kept a (hb.live a i true hm)).2]
    exact hb.out a i hm
  · rcases h.sessions b hbf with haside | ⟨hnew, hinit⟩
    · exact .inl ⟨haside.front, haside.follows hw (.inl (hpend b))⟩
    · -- nothing of the batch is for a connection that was not open
      have hp : (v.openConnection o).pend b = false := by
        rw [hpend]
        refine Bool.eq_false_of_not_eq_true fun hp => ?_
        obtain ⟨o', hm⟩ := pend_iff.mp hp
        exact hnew (hb.live b true o' hm)
      exact .inr ⟨hp, hinit.request, hinit.evOut, hinit.back, hinit.log⟩

theorem steps_drop {i : Item} {rest : List Item} (hw : v.Wired) (hb : v.Batched)
    (hv : v.batch = some (i :: rest)) (hi : ∀ a o, i ≠ .conn a true o) :
    Steps cfg v l { v with batch := some rest } := by
  have hmem : ∀ j, j ∈ rest → j ∈ v.batch.getD [] := by
    intro j hj
    rw [hv]
    exact List.mem_cons_of_mem _ hj
  refine SameMemory.steps ⟨rfl, rfl, rfl, rfl, rfl⟩ hw ⟨fun a i o h => hb.live a i o (hmem _ h), ?_,
    fun a i h => hb.out a i (hmem _ h)⟩ fun b _ => .inl ?_
  · have hn := hb.nodup
    rw [hv] at hn
    show (rest.filterMap Item.addr).Nodup
    exact hn.sublist ((List.sublist_cons_self i rest).filterMap _)
  · rw [Bool.eq_iff_iff, pend_iff, pend_iff, hv]
    refine exists_congr fun o => ⟨fun h => List.mem_cons_of_mem _ h, fun h => ?_⟩
    rcases List.mem_cons.mp h with h | h
    · exact absurd h.symm (hi b o)
    · exact h

/-- An event that is to be served is enabled. -/
theorem enabled_of_batch {a : ConnAddr} {isIn : Bool} {items : List Item} (hw : v.Wired)
    (hb : v.Batched) (hv : v.batch = some items) (hlive : v.Live a)
    (hin : isIn = true → ∃ o, .conn a true o ∈ items)
    (hout : isIn = false → ∃ i, .conn a i true ∈ items) :
    Enabled (v.view (v.frontOf a)) isIn (v.conns a).side := by
  obtain ⟨-, hfr, hself, hup⟩ := hw.frontOf hlive
  have hsession : v.session (v.conns (v.frontOf a)).r = v.session (v.conns a).r := by rw [hfr]
  have houtv : isIn = false → (v.conns a).evOut = true := fun h => by
    obtain ⟨i, hm⟩ := hout h
    refine hb.out a i ?_
    rw [hv]
    exact hm
  cases hs : (v.conns a).side with
  | front =>
      rw [hself hs]
      cases isIn with
      | true =>
          obtain ⟨o, hm⟩ := hin rfl
          refine pend_iff.mpr ⟨o, ?_⟩
          rw [hv]
          exact hm
      | false =>
          show (v.conns (v.reqs (v.conns a).r).c).evOut = true
          rw [(hw.front a ⟨hlive, hs⟩).2]
          exact houtv rfl
  | back =>
      have huc := hup hs
      show (v.session (v.conns (v.frontOf a)).r).r.uc ≠ none ∧
        (isIn = false → (v.session (v.conns (v.frontOf a)).r).u.evOut = true)
      rw [hsession]
      refine ⟨?_, fun h => ?_⟩
      · show (v.reqs (v.conns a).r).uc ≠ none
        rw [huc]
        simp
      · rw [session_u huc]
        exact houtv h

/-- An event of `a` is taken off the batch: `items` are to be served before one of the two `if`s of the
loop's body, and `items'` behind it. -/
structure Taken (a : ConnAddr) (isIn : Bool) (items items' : List Item) : Prop where
  found : ∃ i o, .conn a i o ∈ items ∧ (isIn = true → i = true) ∧ (isIn = false → o = true)
  rest : ∀ x i o, .conn x i o ∈ items' → (∃ i', .conn x i' o ∈ items) ∧ (isIn = true ∨ x ≠ a)
  nodup : (items'.filterMap Item.addr).Nodup
  pend : ∀ b o, .conn b true o ∈ items' ↔ .conn b true o ∈ items ∧ ¬ (isIn = true ∧ b = a)

section serve

variable {a : ConnAddr} {isIn : Bool} {t : Clock} {e : Env} {items items' : List Item}

theorem Batched.item (hb : v.Batched) (hv : v.batch = some items) {x : ConnAddr} {i o : Bool}
    (hm : .conn x i o ∈ items) : v.Live x ∧ (o = true → (v.conns x).evOut = true) := by
  have hm : .conn x i o ∈ v.batch.getD [] := by
    rw [hv]
    exact hm
  exact ⟨hb.live x i o hm, fun ho => hb.out x i (ho ▸ hm)⟩

/-- The events of the others stay pending. -/
theorem Taken.pend_eq (h : Taken a isIn items items') (hv : v.batch = some items)
    (hv' : v'.batch = some items') {b : ConnAddr} (hne : ¬ (isIn = true ∧ b = a)) :
    v'.pend b = v.pend b := by
  rw [Bool.eq_iff_iff, pend_iff, pend_iff, hv, hv']
  refine exists_congr fun o => ?_
  rw [show (some items').getD [] = items' from rfl, h.pend]
  exact and_iff_left hne

/-- An event that is taken is not pending. -/
theorem Taken.not_pend (h : Taken a isIn items items') (hv' : v'.batch = some items')
    {b : ConnAddr} (he : isIn = true ∧ b = a) : v'.pend b ≠ true := by
  intro hp
  obtain ⟨o, ho⟩ := pend_iff.mp hp
  rw [hv'] at ho
  exact absurd he ((h.pend b o).mp ho).2

/-- The connection is expired, and no handler runs. -/
theorem steps_skip (h : Taken a isIn items items') (hw : v.Wired) (hb : v.Batched)
    (hv : v.batch = some items) :
    Steps cfg v l { v with batch := some items', now := t.check } := by
  refine SameMemory.steps ⟨rfl, rfl, rfl, rfl, rfl⟩ hw ⟨fun x i o hm => ?_, h.nodup, fun x i hm => ?_⟩
    fun b _ => ?_
  · obtain ⟨⟨i', hm⟩, -⟩ := h.rest x i o hm
    exact (hb.item hv hm).1
  · obtain ⟨⟨i', hm⟩, -⟩ := h.rest x i true hm
    exact (hb.item hv hm).2 rfl
  · by_cases hne : isIn = true ∧ b = a
    · exact .inr fun hp => absurd hp (h.not_pend rfl hne)
    · exact .inl (h.pend_eq hv rfl hne)

/-- The handler runs. -/
theorem steps_handle (h : Taken a isIn items items') (hw : v.Wired) (hb : v.Batched)
    (hv : v.batch = some items)
    (hbase : ∀ b, v.Front b →
      Base (v.view b).pend (v.view b).s ∧ Tidy (v.view b).pend (v.view b).s)
    (hruns : v.runs cfg l = some (a, isIn, e)) :
    Steps cfg v l { v.handle cfg isIn t e a with batch := some items' } := by
  obtain ⟨i, o, hm, hi, ho⟩ := h.found
  have hlive := (hb.item hv hm).1
  obtain ⟨hff, -, hself, -⟩ := hw.frontOf hlive
  obtain ⟨hbasef, htidyf⟩ := hbase _ hff
  have hen := enabled_of_batch hw hb hv hlive (fun h => ⟨o, hi h ▸ hm⟩) fun h => ⟨i, ho h ▸ hm⟩
  have hs := handle_spec cfg (t := t) (e := e) hw hlive rfl hbasef htidyf hen
  have hsame : SameMemory (v.handle cfg isIn t e a)
      { v.handle cfg isIn t e a with batch := some items' } := ⟨rfl, rfl, rfl, rfl, rfl⟩
  refine ⟨hsame.wired hs.wired, ⟨fun x i o hm => ?_, h.nodup, fun x i hm => ?_⟩, fun b hbf => ?_⟩
  · obtain ⟨⟨i', hm⟩, -⟩ := h.rest x i o hm
    exact hs.live x (hb.item hv hm).1
  · obtain ⟨⟨i', hm⟩, hxa⟩ := h.rest x i true hm
    have hitem := hb.item hv hm
    exact hs.out x hitem.1 hxa (hitem.2 rfl)
  · have hbv := hs.front b hbf
    refine .inl ⟨hbv, ?_⟩
    by_cases hbf' : b = v.frontOf a
    · subst hbf'
      obtain ⟨p, s, hp, hstep, hsess⟩ := hs.own
      refine ⟨⟨p, s⟩, pend { v.handle cfg isIn t e a with batch := some items' } (v.frontOf a),
        (v.handle cfg isIn t e a).g, .inr ⟨_, event_runs hruns, hstep⟩, ?_, ?_⟩
      · by_cases hne : isIn = true ∧ v.frontOf a = a
        · exact .inr fun hp => absurd hp (h.not_pend rfl hne)
        · refine .inl ((h.pend_eq hv rfl hne).trans (hp ?_).symm)
          by_cases hi : isIn = true
          · refine .inl ?_
            cases hside : (v.conns a).side with
            | front => exact absurd ⟨hi, hself hside⟩ hne
            | back => rfl
          · exact .inr (Bool.eq_false_of_not_eq_true hi)
      · exact congrArg (View.mk _) hsess
    · refine ((hs.others b hbv hbf').trans (hsame.aside hbf)).follows hw (.inl (h.pend_eq hv rfl ?_))
      rintro ⟨-, rfl⟩
      exact hbf' (hself hbv.2).symm

/-- One of the two `if`s of the loop's body. -/
theorem steps_serve (h : Taken a isIn items items') (hw : v.Wired) (hb : v.Batched)
    (hv : v.batch = some items)
    (hbase : ∀ b, v.Front b →
      Base (v.view b).pend (v.view b).s ∧ Tidy (v.view b).pend (v.view b).s)
    (hruns : v.g.heap.isExpired cfg.timeout t.check a = false → v.runs cfg l = some (a, isIn, e)) :
    Steps cfg v l { v.serve cfg isIn t e a with batch := some items' } := by
  unfold serve
  by_cases hexp : v.g.heap.isExpired cfg.timeout t.check a = true
  · rw [if_pos hexp]
    exact steps_skip h hw hb hv
  · rw [if_neg hexp]
    exact steps_handle h hw hb hv hbase (hruns (Bool.eq_false_of_not_eq_true hexp))

end serve

/-- A round of the sweep. -/
theorem steps_sweep {now : ℤ} (hw : v.Wired) (hv : v.batch = some [])
    (hruns : l = .sweep now) : Steps cfg v l (v.sweepRound cfg now) := by
  subst hruns
  have hbatched : ∀ w : Server, w.batch.getD [] = [] → w.Batched := by
    intro w h
    refine ⟨?_, ?_, ?_⟩ <;> simp [h]
  have hidle : ∀ w : Server, w.batch.getD [] = [] → ∀ b, w.pend b = false := by
    intro w h b
    simp [pend, h]
  have hnil : v.batch.getD [] = [] := by rw [hv]; rfl
  have hpend := hidle v hnil
  unfold sweepRound
  dsimp only
  split_ifs with hdue hlive
  · unfold closeConnection
    cases hs : (v.conns (v.g.heap.conns 1)).side with
    | front =>
        dsimp only
        cases hcl : v.closeFront (v.g.heap.conns 1) with
        | error f =>
            exact SameMemory.steps ⟨rfl, rfl, rfl, rfl, rfl⟩ hw (hbatched _ hnil)
              fun b _ => .inl rfl
        | ok v₂ =>
            obtain ⟨hc, haside⟩ := closeFront_spec hw ⟨hlive, hs⟩ hcl
            have hnil₂ : v₂.batch.getD [] = [] := by rw [hc.batch]; exact hnil
            have hpend₂ := hidle v₂ hnil₂
            have hsame : SameMemory v₂ { v₂ with now := now } := ⟨rfl, rfl, rfl, rfl, rfl⟩
            refine ⟨hsame.wired hc.wired, hbatched _ hnil₂, fun b hbf => .inl ?_⟩
            obtain ⟨hbv, hgone⟩ := (hc.front b).mp hbf
            have h1 := (haside b hbv fun e => hgone (.inl e)).trans (hsame.aside hbf)
            exact ⟨hbv, h1.follows hw (.inl ((hpend₂ b).trans (hpend b).symm))⟩
    | back =>
        dsimp only
        cases hcl : v.closeBack (v.g.heap.conns 1) with
        | error f =>
            exact SameMemory.steps ⟨rfl, rfl, rfl, rfl, rfl⟩ hw (hbatched _ hnil)
              fun b _ => .inl rfl
        | ok v₂ =>
            obtain ⟨hc, hsess, haside⟩ := closeBack_spec hw hlive hs hcl
            obtain ⟨hff, hfr, -, hup⟩ := hw.frontOf hlive
            have hnil₂ : v₂.batch.getD [] = [] := by rw [hc.batch]; exact hnil
            have hpend₂ := hidle v₂ hnil₂
            have hsame : SameMemory v₂ { v₂ with now := now } := ⟨rfl, rfl, rfl, rfl, rfl⟩
            refine ⟨hsame.wired hc.wired, hbatched _ hnil₂, fun b hbf => .inl ?_⟩
            obtain ⟨hbv, -⟩ := (hc.front b).mp hbf
            refine ⟨hbv, ?_⟩
            by_cases hbf' : b = v.frontOf (v.g.heap.conns 1)
            · subst hbf'
              have hev : v.sweeps cfg (.sweep now) = some (v.g.heap.conns 1) := by
                unfold sweeps
                rw [hv]
                exact if_pos ⟨hdue, hlive, hs⟩
              have huc : (v.session (v.conns (v.frontOf (v.g.heap.conns 1))).r).r.uc ≠ none := by
                rw [hfr]
                show (v.reqs (v.conns (v.g.heap.conns 1)).r).uc ≠ none
                rw [hup hs]
                simp
              refine ⟨⟨false, _⟩, false, v₂.g, .inr ⟨_, event_sweeps hev, if_pos ⟨hpend _, huc⟩⟩, .inl rfl, ?_⟩
              refine congrArg₂ View.mk (hpend₂ _) ?_
              show v₂.session (v₂.conns (v.frontOf (v.g.heap.conns 1))).r = _
              rw [hc.conns, hfr, hsess]
              show _ = ((v.session (v.conns (v.frontOf (v.g.heap.conns 1))).r).dropUpstream).share v₂.g
              rw [hfr]
            · have hr : (v.conns b).r ≠ (v.conns (v.g.heap.conns 1)).r := fun e =>
                hbf' (hw.front_inj hff hbv (e.trans hfr.symm))
              exact ((haside b hbv hr).trans (hsame.aside hbf)).follows hw
                (.inl ((hpend₂ b).trans (hpend b).symm))
  · exact SameMemory.steps ⟨rfl, rfl, rfl, rfl, rfl⟩ hw (hbatched _ hnil) fun b _ => .inl rfl
  · exact SameMemory.steps ⟨rfl, rfl, rfl, rfl, rfl⟩ hw (hbatched _ rfl)
      fun b _ => .inl ((hidle _ rfl b).trans (hpend b).symm)

/-- What holds in every state of a worker. -/
structure Sound (v : Server) : Prop where
  wired : v.Wired
  batched : v.Batched
  base : ∀ a, v.Front a → Base (v.view a).pend (v.view a).s
  tidy : ∀ a, v.Front a → Tidy (v.view a).pend (v.view a).s

/-- **A step of the worker is a step of one session at most.** -/
theorem step_sessions (hs : v.Sound) (h : v.step cfg l = some v') : Steps cfg v l v' := by
  obtain ⟨hw, hb, hbase, htidy⟩ := hs
  obtain ⟨-, hnext⟩ := Option.ite_none_right_eq_some.mp h
  have hboth := fun b hf => And.intro (hbase b hf) (htidy b hf)
  unfold next at hnext
  split at hnext
  · -- `epoll_wait`
    obtain ⟨hrep, hnext⟩ := Option.ite_none_right_eq_some.mp hnext
    cases hnext
    exact steps_poll hw hrep
  · cases hnext
    exact steps_accept hw hb _
  · rename_i hv
    cases hnext
    exact steps_drop hw hb hv fun a o h => by cases h
  · -- the first `if`: the entry stays, without its `EPOLLIN`
    rename_i t e a out rest hv
    cases hnext
    have hhead := hb.head hv
    refine steps_serve ⟨⟨true, out, List.mem_cons_self, fun _ => rfl, (fun h => by cases h)⟩,
      fun x i o hm => ⟨?_, .inl rfl⟩, ?_, fun b o => ?_⟩ hw hb hv hboth fun hexp => ?_
    · rcases List.mem_cons.mp hm with hm | hm
      · cases hm
        exact ⟨true, List.mem_cons_self⟩
      · exact ⟨i, List.mem_cons_of_mem _ hm⟩
    · have hn := hb.nodup
      rw [hv] at hn
      exact hn
    · constructor
      · intro hm
        rcases List.mem_cons.mp hm with hm | hm
        · cases hm
        · exact ⟨List.mem_cons_of_mem _ hm, fun hba => hhead true o (hba.2 ▸ hm)⟩
      · rintro ⟨hm, hne⟩
        rcases List.mem_cons.mp hm with hm | hm
        · cases hm
          exact absurd ⟨rfl, rfl⟩ hne
        · exact List.mem_cons_of_mem _ hm
    · unfold runs
      rw [hv]
      exact if_neg (by rw [hexp]; simp)
  · -- the second `if`: the entry is done
    rename_i t e a rest hv
    cases hnext
    have hhead := hb.head hv
    refine steps_serve ⟨⟨false, true, List.mem_cons_self, (fun h => by cases h), fun _ => rfl⟩,
      fun x i o hm => ⟨?_, .inr ?_⟩, ?_, fun b o => ?_⟩ hw hb hv hboth fun hexp => ?_
    · exact ⟨i, List.mem_cons_of_mem _ hm⟩
    · rintro rfl
      exact hhead i o hm
    · have hn := hb.nodup
      rw [hv] at hn
      exact (List.nodup_cons.mp hn).2
    · refine ⟨fun hm => ⟨List.mem_cons_of_mem _ hm, fun h => by cases h.1⟩, fun ⟨hm, _⟩ => ?_⟩
      rcases List.mem_cons.mp hm with hm | hm
      · cases hm
      · exact hm
    · unfold runs
      rw [hv]
      exact if_neg (by rw [hexp]; simp)
  · rename_i hv
    cases hnext
    exact steps_drop hw hb hv fun a o h => by cases h
  · rename_i hv
    cases hnext
    exact steps_sweep hw hv rfl
  · cases hnext

/-- The worker behind `sy_server_init` has no connection. -/
theorem Init.sound (h : v.Init) : v.Sound := by
  have hfront : ∀ a, ¬ v.Front a := fun a ha => h.closed a ha.1
  refine ⟨⟨h.pool, h.reqPool, fun a ha => absurd ha (hfront a), fun a ha => absurd ha (h.closed a),
    fun a u ha => absurd ha (hfront a)⟩, ⟨?_, ?_, ?_⟩, fun a ha => absurd ha (hfront a),
    fun a ha => absurd ha (hfront a)⟩ <;> simp [h.batch]

theorem tidy_init {w : View} (h : w.Init) : Tidy w.pend w.s := fun _ => h.back

theorem Sound.step (hs : v.Sound) (h : v.step cfg l = some v') : v'.Sound := by
  have hstep := step_sessions hs h
  have hboth : ∀ b, v'.Front b →
      Base (v'.view b).pend (v'.view b).s ∧ Tidy (v'.view b).pend (v'.view b).s := by
    intro b hb
    rcases hstep.sessions b hb with ⟨hbv, hfollow⟩ | hinit
    · exact (invariant_tidy cfg).follows (hs.base b hbv) (hs.tidy b hbv) (fun _ _ => trivial) hfollow
    · exact ⟨base_init hinit, tidy_init hinit⟩
  exact ⟨hstep.wired, hstep.batched, fun b hb => (hboth b hb).1, fun b hb => (hboth b hb).2⟩

end step

section reached

variable {cfg : Config} {v : Server}

theorem Reached.sound {good : Server → Label → Prop} (h : Reached cfg good v) : v.Sound :=
  h.invariant Sound (fun _ => Init.sound) fun _ _ _ hs _ hstep => hs.step hstep

/-- **An invariant of a session holds of every open session of a worker.** -/
theorem Reached.sessions {good : View → SessionEvent → Prop} {I : Bool → Session → Prop}
    {J : Session → Prop} (hI : Invariant cfg good I J) (hinit : ∀ w, View.Init w → I w.pend w.s)
    (h : Reached cfg (Meets cfg good) v) :
    ∀ a, v.Front a → I (v.view a).pend (v.view a).s := by
  refine h.invariant_of (fun _ => Reached.sound)
    (fun v => ∀ a, v.Front a → I (v.view a).pend (v.view a).s)
    (fun v hv a ha => absurd ha.1 (hv.closed a)) fun v l v' hs hi hgood hstep a ha => ?_
  rcases (step_sessions hs hstep).sessions a ha with ⟨hav, hfollow⟩ | hnew
  · exact (hI.follows (hs.base a hav) (hi a hav) (fun ev hev => hgood (a, ev) hev) hfollow).2
  · exact hinit _ hnew

end reached

end Server

end SyServer
