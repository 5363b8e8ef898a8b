import SyServer.Registered

/-! # Workers that are alive

A failed assertion ends the worker, and leaves the session of its call anyhow.  `Alive` is what has
to be shown of the calls that return, for a property to hold in every state in which the worker
lives; `J` is an invariant known already. -/

namespace SyServer

open Transition (Reach)

/-- The call that a step of a session makes fails no assertion. -/
def View.Returns (cfg : Config) (v : View) : SessionEvent → Prop
  | .request e => ∃ rc, (handleRequest cfg e v.s).1 = .ok rc
  | .response e => ∃ rc, (settle v.s (handleResponse e v.s)).1 = .ok rc
  | .upstream e => ∃ rc, (settle v.s (handleUpstream e v.s)).1 = .ok rc
  | .pass e => ∃ rc, (settle v.s (handlePass e v.s)).1 = .ok rc
  | _ => True

/-- A settled call that returns. -/
theorem settle_ok {s : Session} {x : Except Fault (Rc × Session)} (h : ∃ rc, (settle s x).1 = .ok rc) :
    ∃ rc, x = .ok (rc, (settle s x).2) := by
  obtain ⟨rc, h⟩ := h
  cases x with
  | error f => cases h
  | ok p => exact ⟨p.1, rfl⟩

variable {cfg : Config} {good : View → SessionEvent → Prop} {J K : Bool → Session → Prop}

/-- What has to be kept by the calls that return. -/
structure Alive (cfg : Config) (good : View → SessionEvent → Prop) (J K : Bool → Session → Prop) :
    Prop where
  share : ∀ p s g, K p s → K p (s.share g)
  poll : ∀ p b s, Base p s → (b = true → s.c.evIn = true) → K p s → K b s
  request : ∀ s s' e rc, Base true s → J true s → K true s → good ⟨true, s⟩ (.request e) →
    handleRequest cfg e s = (.ok rc, s') → K false s'
  response : ∀ p s s' e rc, Base p s → J p s → K p s → good ⟨p, s⟩ (.response e) →
    s.c.evOut = true → handleResponse e s = .ok (rc, s') → K p s'
  upstream : ∀ p s s' e rc, Base p s → J p s → K p s → good ⟨p, s⟩ (.upstream e) →
    s.r.uc ≠ none → handleUpstream e s = .ok (rc, s') → K p s'
  pass : ∀ p s s' e rc, Base p s → J p s → K p s → good ⟨p, s⟩ (.pass e) →
    s.r.uc ≠ none → s.u.evOut = true → handlePass e s = .ok (rc, s') → K p s'
  close : ∀ s, Base false s → J false s → K false s → good ⟨false, s⟩ .close → s.r.uc ≠ none →
    K false s.dropUpstream

/-- One step that returns. -/
theorem Alive.step (hK : Alive cfg good J K) {w w' : View} {ev : SessionEvent}
    (hb : Base w.pend w.s) (hj : J w.pend w.s) (hk : K w.pend w.s) (hgood : good w ev)
    (hret : w.Returns cfg ev) (h : w.step cfg ev = some w') : K w'.pend w'.s := by
  obtain ⟨p, s⟩ := w
  cases ev with
  | poll b =>
      obtain ⟨hin, h⟩ := Option.ite_none_right_eq_some.mp h
      cases h
      exact hK.poll _ _ _ hb hin hk
  | share g =>
      cases h
      exact hK.share _ _ g hk
  | request e =>
      obtain ⟨rfl, h⟩ := Option.ite_none_right_eq_some.mp h
      cases h
      obtain ⟨rc, hrc⟩ := hret
      exact hK.request _ _ e rc hb hj hk hgood (Prod.ext hrc rfl)
  | response e =>
      obtain ⟨hout, h⟩ := Option.ite_none_right_eq_some.mp h
      cases h
      obtain ⟨rc, hrc⟩ := settle_ok hret
      exact hK.response _ _ _ e rc hb hj hk hgood hout hrc
  | upstream e =>
      obtain ⟨huc, h⟩ := Option.ite_none_right_eq_some.mp h
      cases h
      obtain ⟨rc, hrc⟩ := settle_ok hret
      exact hK.upstream _ _ _ e rc hb hj hk hgood huc hrc
  | pass e =>
      obtain ⟨⟨huc, hout⟩, h⟩ := Option.ite_none_right_eq_some.mp h
      cases h
      obtain ⟨rc, hrc⟩ := settle_ok hret
      exact hK.pass _ _ _ e rc hb hj hk hgood huc hout hrc
  | close =>
      obtain ⟨⟨rfl, huc⟩, h⟩ := Option.ite_none_right_eq_some.mp h
      cases h
      exact hK.close _ hb hj hk hgood huc

namespace Server

section run

variable {v v' : Server} {l : Label}

/-- The call of a step after which the worker lives has returned. -/
theorem returns_of_alive (hs : v.Sound) (h : v.step cfg l = some v') (hd : v'.dead = none)
    {f : ConnAddr} {ev : SessionEvent} (hev : (f, ev) ∈ v.event cfg l) : (v.view f).Returns cfg ev := by
  have hstep := (step_cases h).2
  unfold event at hev
  cases hruns : v.runs cfg l with
  | none =>
      rw [hruns] at hev
      obtain ⟨a, -, he⟩ := Option.map_eq_some_iff.mp hev
      cases he
      trivial
  | some x =>
      obtain ⟨a, isIn, e⟩ := x
      rw [hruns] at hev
      cases hev
      obtain ⟨hlive, -⟩ := hs.runs hruns
      obtain ⟨-, hfr, -, -⟩ := hs.wired.frontOf hlive
      -- the handler of the step ran on this session, and failed nothing
      have hok : ∃ rc, (handler cfg e (v.view (v.frontOf a)).s isIn (v.conns a).side).1 = .ok rc := by
        have hview : (v.view (v.frontOf a)).s = v.session (v.conns a).r := by
          show v.session (v.conns (v.frontOf a)).r = _
          rw [hfr]
        rw [hview]
        cases hstep with
        | poll => cases hruns
        | accept => cases hruns
        | drop _ hnone => rw [hruns] at hnone; cases hnone
        | skip _ _ hnone => rw [hruns] at hnone; cases hnone
        | sweep => cases hruns
        | @handle _ a' isIn' c e' items hruns' hclock hexp =>
            rw [hruns] at hruns'
            cases hruns'
            cases hrun : handler cfg e (v.session (v.conns a).r) isIn (v.conns a).side with
            | mk err s =>
                cases err with
                | ok rc => exact ⟨rc, rfl⟩
                | error f =>
                    have hdead : (v.handle cfg isIn c e a).dead = none := hd
                    unfold Server.handle at hdead
                    rw [hrun] at hdead
                    cases hdead
      cases hside : (v.conns a).side <;> cases isIn <;> rw [hside] at hok <;> exact hok

/-- **A property of a session that the returning calls keep holds while the worker lives.** -/
theorem Reached.alive (hK : Alive cfg good J K) (hinit : ∀ w, View.Init w → K w.pend w.s)
    (hJ : ∀ v, Reached cfg (Meets cfg good) v → v.dead = none →
      ∀ a, v.Front a → J (v.view a).pend (v.view a).s)
    (h : Reached cfg (Meets cfg good) v) (hd : v.dead = none) :
    ∀ a, v.Front a → K (v.view a).pend (v.view a).s := by
  refine h.invariant_of (J := fun v => v.Sound ∧
      (v.dead = none → ∀ a, v.Front a → J (v.view a).pend (v.view a).s))
    (fun v hv => ⟨Reached.sound hv, hJ v hv⟩)
    (fun v => v.dead = none → ∀ a, v.Front a → K (v.view a).pend (v.view a).s)
    (fun v hv _ a ha => absurd ha.1 (hv.closed a)) (fun v l v' hsj hk hgood hstep hd' a ha => ?_) hd
  obtain ⟨hs, hj⟩ := hsj
  have hj := hj (step_cases hstep).1
  have hk := hk (step_cases hstep).1
  rcases (step_sessions hs hstep).sessions a ha with ⟨hav, hfollow⟩ | hnew
  · have hb := hs.base a hav
    refine (hfollow.keeps (P := fun p s => Base p s ∧ K p s) ⟨hb, hk a hav⟩ ?_ ?_ ?_).2
    · intro ev w₁ hev hw
      exact ⟨((invariant_tidy cfg).step hb (hs.tidy a hav) trivial hw).1,
        hK.step hb (hj a hav) (hk a hav) (hgood (a, ev) hev) (returns_of_alive hs hstep hd' hev) hw⟩
    · exact fun p b s hin h => ⟨base_poll h.1 hin, hK.poll _ _ _ h.1 hin h.2⟩
    · exact fun p s g h => ⟨base_share h.1 g, hK.share _ _ g h.2⟩
  · exact hinit _ hnew

end run

end Server

/-! ### Calls as a whole -/

/-- What has to be kept where the condition on a call is about the call as a whole, whether it
returns or not. -/
structure Kept (cfg : Config) (good : View → SessionEvent → Prop) (K : Bool → Session → Prop) :
    Prop where
  share : ∀ p s g, K p s → K p (s.share g)
  poll : ∀ p b s, Base p s → (b = true → s.c.evIn = true) → K p s → K b s
  request : ∀ s e, Base true s → K true s → good ⟨true, s⟩ (.request e) →
    K false (handleRequest cfg e s).2
  response : ∀ p s s' e rc, Base p s → K p s → good ⟨p, s⟩ (.response e) → s.c.evOut = true →
    handleResponse e s = .ok (rc, s') → K p s'
  upstream : ∀ p s s' e, K p s → s.r.uc ≠ none → UpstreamMove e s s' → K p s'
  pass : ∀ p s s' e, K p s → s.r.uc ≠ none → PassMove e s s' → K p s'
  close : ∀ s, K false s → s.r.uc ≠ none → K false s.dropUpstream

/-- A call of `sy_handle_request`, where what is received and every move keep a property. -/
theorem kept_request {e : Env} {s : Session} {K : Session → Prop} (hb : Base true s)
    (hreceive : ∀ d, K (s.receive d))
    (hclient : ∀ t t', Base false t → K t → ClientMove cfg t t' → K t')
    (hlate : ∀ t t', K t → LateMove t t' → K t') :
    Base false (handleRequest cfg e s).2 ∧ K (handleRequest cfg e s).2 := by
  have hrun : handleRequest cfg e s = ((handleRequest cfg e s).1, (handleRequest cfg e s).2) := rfl
  by_cases hl : s.Late
  · obtain ⟨d, -, h | ⟨-, hm⟩⟩ := handleRequest_late hl (hb.late_pending hl) hrun
    · rw [h]
      exact ⟨base_receive hb d, hreceive d⟩
    · exact ⟨base_late (base_receive hb d) hm, hlate _ _ (hreceive d) hm⟩
  · obtain ⟨d, -, hmoves, -⟩ := handleRequest_moves (fun _ => hl) hrun
    exact Transition.kept_of_moves (fun t => Base false t ∧ K t)
      (fun t t' ht hm => ⟨base_client ht.1 hm, hclient t t' ht.1 ht.2 hm⟩)
      ⟨base_receive hb d, hreceive d⟩ hmoves

/-- One step. -/
theorem Kept.step (hK : Kept cfg good K) {w w' : View} {ev : SessionEvent} (hb : Base w.pend w.s)
    (hk : K w.pend w.s) (hgood : good w ev) (h : w.step cfg ev = some w') : K w'.pend w'.s := by
  obtain ⟨p, s⟩ := w
  cases ev with
  | poll b =>
      obtain ⟨hin, h⟩ := Option.ite_none_right_eq_some.mp h
      cases h
      exact hK.poll _ _ _ hb hin hk
  | share g =>
      cases h
      exact hK.share _ _ g hk
  | request e =>
      obtain ⟨rfl, h⟩ := Option.ite_none_right_eq_some.mp h
      cases h
      exact hK.request _ e hb hk hgood
  | response e =>
      obtain ⟨hout, h⟩ := Option.ite_none_right_eq_some.mp h
      cases h
      dsimp only at hb hk hout ⊢
      rcases settle_cases s (handleResponse e s) with h | ⟨rc, h⟩
      · rw [h]
        exact hk
      · exact hK.response _ _ _ e rc hb hk hgood hout h
  | upstream e =>
      obtain ⟨huc, h⟩ := Option.ite_none_right_eq_some.mp h
      cases h
      dsimp only at hk huc ⊢
      rcases settle_cases s (handleUpstream e s) with h | ⟨rc, h⟩
      · rw [h]
        exact hk
      · exact hK.upstream _ _ _ e hk huc (handleUpstream_move h)
  | pass e =>
      obtain ⟨⟨huc, -⟩, h⟩ := Option.ite_none_right_eq_some.mp h
      cases h
      dsimp only at hb hk huc ⊢
      rcases settle_cases s (handlePass e s) with h | ⟨rc, h⟩
      · rw [h]
        exact hk
      · exact hK.pass _ _ _ e hk huc (handlePass_move hb.rb h)
  | close =>
      obtain ⟨⟨rfl, huc⟩, h⟩ := Option.ite_none_right_eq_some.mp h
      cases h
      exact hK.close _ hk huc

/-- **A property of a session that the calls keep holds in every state reached.** -/
theorem Server.Reached.kept {v : Server} (hK : Kept cfg good K) (hinit : ∀ w, View.Init w → K w.pend w.s)
    (h : Server.Reached cfg (Server.Meets cfg good) v) :
    ∀ a, v.Front a → K (v.view a).pend (v.view a).s := by
  refine h.invariant_of (fun _ => Server.Reached.sound)
    (fun v => ∀ a, v.Front a → K (v.view a).pend (v.view a).s)
    (fun v hv a ha => absurd ha.1 (hv.closed a)) fun v l v' hs hk hgood hstep a ha => ?_
  rcases (Server.step_sessions hs hstep).sessions a ha with ⟨hav, hfollow⟩ | hnew
  · have hb := hs.base a hav
    refine (hfollow.keeps (P := fun p s => Base p s ∧ K p s) ⟨hb, hk a hav⟩ ?_ ?_ ?_).2
    · intro ev w₁ hev hw
      exact ⟨((invariant_tidy cfg).step hb (hs.tidy a hav) trivial hw).1,
        hK.step hb (hk a hav) (hgood (a, ev) hev) hw⟩
    · exact fun p b s hin h => ⟨base_poll h.1 hin, hK.poll _ _ _ h.1 hin h.2⟩
    · exact fun p s g h => ⟨base_share h.1 g, hK.share _ _ g h.2⟩
  · exact hinit _ hnew

end SyServer
