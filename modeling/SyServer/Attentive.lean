import SyServer.Alive
import SyServer.HeaderLookup
import SyServer.Isolation

/-! # No connection is forgotten

`EVENTS_IN` of a front connection is turned off where the server will not read on, and `EVENTS_OUT`
where nothing is left to be sent.  A connection with both turned off is only woken by its upstream, on
which `EVENTS_IN` is on from the beginning to the end.  So every open connection waits for something,
or its response is complete and it is to be closed; the exception is a connection that a sweep takes
the upstream from while nothing else is waited for: an upstream that closes before it has sent
anything. -/

namespace SyServer

open Transition (Reach exec along_true exists_of_any)

/-- Something is waited for, or the response is complete. -/
structure Attentive (s : Session) : Prop where
  waits : s.c.evIn = true ∨ s.c.evOut = true ∨ s.r.uc ≠ none ∨ s.r.responseDone = true
  back : s.r.uc ≠ none → s.u.evIn = true

/-- No upstream is closed while its client waits for nothing else. -/
def NotSilent (v : View) : SessionEvent → Prop
  | .close => v.s.c.evIn = true ∨ v.s.c.evOut = true ∨ v.s.r.responseDone = true
  | _ => True

instance (v : View) : ∀ ev, Decidable (NotSilent v ev)
  | .close => inferInstanceAs (Decidable (_ ∨ _ ∨ _))
  | .poll _ | .share _ | .request _ | .response _ | .pass _ | .upstream _ => .isTrue trivial

section moves

variable {cfg : Config} {s s' : Session} {e : Env} {rc : Rc}

/-- An error page is to be sent. -/
theorem attentive_errored {status : ℕ} {b : Buffer} (hback : s.r.uc ≠ none → s.u.evIn = true) :
    Attentive (s.errored status b) := ⟨.inr (.inl rfl), hback⟩

theorem attentive_uri (h : Attentive s) (hm : UriMove s s') : Attentive s' := by
  cases hm with
  | notFound => exact attentive_errored h.back
  | refused => exact attentive_errored fun h => absurd rfl h
  | missing => exact attentive_errored h.back
  | proxied => exact ⟨.inr (.inr (.inl (by simp))), fun _ => rfl⟩
  | found => exact { h with }

theorem attentive_client (h : Attentive s) (hm : ClientMove cfg s s') : Attentive s' := by
  cases hm with
  | called hl => exact { h with }
  | lineMore hopen hin hp =>
      obtain ⟨_, _, _, _, _, _, rfl, -⟩ := parseRequestLine_frame hp
      exact { h with }
  | lineError status hopen hin hp hrc hb =>
      obtain ⟨_, _, _, _, _, _, rfl, -⟩ := parseRequestLine_frame hp
      exact attentive_errored h.back
  | @lineOk r s' k hopen hin hp huri =>
      have hr : Attentive { s with r := { r with keepAlive := k, inHandler := .headers } } := by
        obtain ⟨_, _, _, _, _, _, rfl, -⟩ := parseRequestLine_frame hp
        exact { h with }
      exact attentive_uri hr huri
  | headersMore hin hp | header hin hp | headersEnd hin hp =>
      obtain ⟨_, _, _, _, rfl, -, -⟩ := parseHeaderLine_frame hp
      exact { h with }
  | headerSet hs k te n hin hp hget hk =>
      obtain ⟨_, _, _, _, rfl, -, -⟩ := parseHeaderLine_frame hp
      exact { h with }
  | headerError hs status hin hp hget hb =>
      obtain ⟨_, _, _, _, rfl, -, -⟩ := parseHeaderLine_frame hp
      exact attentive_errored h.back
  | bodyMore n hin hlen huc => exact ⟨.inr (.inr (.inl huc)), h.back⟩
  | bodyRelayed n hin huc => exact ⟨.inr (.inr (.inl huc)), h.back⟩
  | bodyLocal n fd hin huc hb => exact ⟨.inr (.inl rfl), h.back⟩

/-! ### The response -/

/-- While the response is sent, its socket is waited for until it is complete. -/
def Sending (s : Session) : Prop :=
  (s.c.evOut = true ∨ s.r.responseDone = true) ∧ (s.r.uc ≠ none → s.u.evIn = true)

theorem responseBufferSent_sending (h : Sending s) : Sending (responseBufferSent s).2 := by
  unfold responseBufferSent
  split_ifs with huc hfd
  · exact h
  · exact h
  · exact ⟨.inr rfl, h.2⟩

theorem OutHandler.run_sending (h : Sending s) (hrun : s.r.outHandler.run e s = .ok (rc, s')) :
    Sending s' := by
  cases hout : s.r.outHandler with
  | buffer =>
      rw [hout] at hrun
      have hrun : sendResponseBuffer e s = (rc, s') := Except.ok.inj hrun
      unfold sendResponseBuffer at hrun
      dsimp only at hrun
      have hs : Sending ({ s with r := { s.r with sb := (s.r.sb.send e.sends).2.1 } }.note
        (.delivered (.buffer (s.r.sb.send e.sends).2.2))) := h
      split_ifs at hrun
      · have hsent := responseBufferSent_sending hs
        rw [hrun] at hsent
        exact hsent
      · cases hrun; exact hs
      · cases hrun; exact hs
  | file =>
      rw [hout] at hrun
      unfold OutHandler.run sendResponseFile at hrun
      dsimp only at hrun
      split_ifs at hrun with huc hok
      · cases hrun; exact ⟨.inr rfl, h.2⟩
      · cases hrun; exact h

theorem responseLoop_sending {n : ℕ} (h : Sending s) (hrun : responseLoop e n s = .ok (rc, s')) :
    Sending s' := by
  induction n generalizing s with
  | zero => cases hrun; exact h
  | succ n ih =>
      obtain ⟨⟨err, s₁⟩, h1, h2⟩ := bind_ok hrun
      have hs₁ := OutHandler.run_sending h h1
      dsimp only at h2
      split_ifs at h2
      · exact ih hs₁ h2
      · cases h2; exact hs₁

theorem attentive_response (hout : s.c.evOut = true) (h : Attentive s)
    (hrun : handleResponse e s = .ok (rc, s')) : Attentive s' := by
  obtain ⟨⟨err, s₁⟩, h1, h2⟩ := bind_ok hrun
  obtain ⟨hwaits, hback⟩ := responseLoop_sending ⟨.inl hout, h.back⟩ h1
  have hs₁ : Attentive s₁ := ⟨hwaits.elim (fun h => .inr (.inl h)) fun h => .inr (.inr (.inr h)), hback⟩
  dsimp only at h2
  split_ifs at h2
  · cases h2; exact ⟨.inl rfl, hback⟩
  · cases h2; exact hs₁
  · cases h2; exact hs₁

theorem attentive_upstream (h : Attentive s) (hm : UpstreamMove e s s') : Attentive s' := by
  cases hm with
  | more => exact ⟨.inr (.inl rfl), h.back⟩
  | eof => exact { h with }
  | failed => exact attentive_errored h.back

theorem attentive_pass (h : Attentive s) (hm : PassMove e s s') : Attentive s' := by
  cases hm with
  | done => exact ⟨.inl rfl, h.back⟩
  | part => exact { h with }
  | failed => exact attentive_errored h.back

theorem alive_attentive : Alive cfg NotSilent (fun _ _ => True) fun _ s => Attentive s where
  share _ _ _ h := { h with }
  poll _ _ _ _ _ h := h
  request s s' e rc hb _ h _ hrun := by
    have hkept : Attentive (handleRequest cfg e s).2 := (kept_request hb (fun d => { h with })
      (fun _ _ _ => attentive_client) fun t t' ht hm => by
        cases hm with
        | aborted => exact { ht with }
        | empty => exact { ht with }).2
    rwa [hrun] at hkept
  response _ _ _ _ _ _ _ h _ hout hrun := attentive_response hout h hrun
  upstream _ _ _ _ _ _ _ h _ _ hrun := attentive_upstream h (handleUpstream_move hrun)
  pass _ _ _ _ _ hb _ h _ _ _ hrun := attentive_pass h (handlePass_move hb.rb hrun)
  close s _ _ h hgood _ := ⟨hgood.imp_right fun h => h.imp_right .inr, fun h => absurd rfl h⟩

theorem attentive_init {v : View} (h : v.Init) (hin : v.s.c.evIn = true) : Attentive v.s := by
  obtain ⟨r₀, c, hr⟩ := h.request
  exact ⟨.inl hin, fun huc => absurd (by rw [hr]; rfl) huc⟩

end moves

/-! ### Runs of the worker -/

namespace Server

section runs

variable {cfg : Config} {v v' : Server} {l : Label} {a b : ConnAddr}

/-- On a connection that is accepted `EVENTS_IN` is on. -/
theorem openConnection_listens (hw : v.Wired) (o : Opening) (hb : (v.openConnection o).Front b)
    (hnew : ¬ v.Live b) : ((v.openConnection o).conns b).evIn = true := by
  obtain ⟨a, v₁, hset⟩ : ∃ a v₁, v.setUp o = (a, v₁) := ⟨_, _, rfl⟩
  obtain ⟨q, hsetup⟩ := setUp_new hw o hset
  obtain ⟨hopen, ha, -⟩ := setUp_spec hw o hset
  have hm := openConnection_move hset
  generalize v.openConnection o = v' at hm hb ⊢
  -- whether it is closed again or not, the connections are those of the set-up
  have hclose : ∀ w : Server, SameMemory v₁ w → (w.settled (w.closeConnection a)).Front b →
      v₁.Live b ∧ (w.settled (w.closeConnection a)).conns = v₁.conns := by
    intro w hs hbw
    cases hcl : w.closeConnection a with
    | error f =>
        rw [hcl] at hbw
        exact ⟨(hs.live b).mp hbw.1, hs.conns⟩
    | ok v₂ =>
        rw [hcl] at hbw
        have hc := closeConnection_closed (hs.wired hopen.wired) ((hs.live a).mpr ha.1) hcl
        exact ⟨(hs.live b).mp ((hc.live b).mp hbw.1).1, hc.conns.trans hs.conns⟩
  have hconns : v₁.Live b ∧ v'.conns = v₁.conns := by
    cases hm with
    | refused => exact hclose _ (sameMemory_heap v₁ v₁.g.heap true) hb
    | @closed heap => exact hclose _ (sameMemory_heap v₁ heap v₁.g.refused) hb
    | done => exact ⟨hb.1, rfl⟩
  obtain ⟨hlive, hconns⟩ := hconns
  rcases (hsetup.live b).mp hlive with rfl | hold
  · rw [hconns, hsetup.conn]
  · exact absurd hold hnew

/-- A front connection was open before a step, or it was accepted. -/
theorem step_front (hs : v.Sound) (hstep : v.step cfg l = some v') (hb : v'.Front b) :
    v.Front b ∨ ¬ v.Live b ∧ (v'.conns b).evIn = true := by
  have hsame : ∀ {v' : Server}, SameMemory v v' → v'.Front b → v.Front b := fun h => (h.front b).mp
  cases (step_cases hstep).2 with
  | poll | drop | skip => exact .inl (hsame ⟨rfl, rfl, rfl, rfl, rfl⟩ hb)
  | accept o =>
      rcases (openConnection_spec hs.wired o).sessions b hb with h | ⟨hnew, -⟩
      · exact .inl h.front
      · exact .inr ⟨hnew, openConnection_listens hs.wired o hb hnew⟩
  | @handle _ a isIn c e items hruns => exact .inl ((handle_served hs c hruns).front b hb)
  | sweep now =>
      refine .inl ?_
      revert hb
      unfold sweepRound
      dsimp only
      split_ifs with hdue hlive
      · intro hb
        cases hclose : v.closeConnection (v.g.heap.conns 1) with
        | error f =>
            rw [hclose] at hb
            exact hsame ⟨rfl, rfl, rfl, rfl, rfl⟩ hb
        | ok v₂ =>
            rw [hclose] at hb
            exact (((closeConnection_closed hs.wired hlive hclose).front b).mp hb).1
      · exact hsame ⟨rfl, rfl, rfl, rfl, rfl⟩
      · exact hsame ⟨rfl, rfl, rfl, rfl, rfl⟩

theorem attentive_step (hs : v.Sound) (hgood : Meets cfg NotSilent v l) (hstep : v.step cfg l = some v')
    (hd : v'.dead = none) (hi : ∀ a, v.Front a → Attentive (v.view a).s) :
    ∀ a, v'.Front a → Attentive (v'.view a).s := by
  intro a ha
  rcases step_front hs hstep ha with hav | ⟨hnew, hin⟩
  · cases hown : v.ownEvent cfg a l with
    | none =>
        have h := step_aside hs hstep hav ha fun ev hev => by
          rw [ownEvent_eq.mpr hev] at hown
          cases hown
        have hold := hi a hav
        show Attentive (v'.session (v'.conns a).r)
        rw [h.conns, h.session]
        exact { hold with }
    | some ev =>
        have hev := ownEvent_eq.mp hown
        obtain ⟨w, hw, -, hsess⟩ := step_event hs hstep hev
        have hnext := alive_attentive.step (hs.base a hav) trivial (hi a hav) (hgood (a, ev) hev)
          (returns_of_alive hs hstep hd hev) hw
        show Attentive (v'.session (v'.conns a).r)
        rw [hsess]
        exact { hnext with }
  · rcases (step_sessions hs hstep).sessions a ha with ⟨h, -⟩ | hinit
    · exact absurd h.1 hnew
    · refine attentive_init hinit ?_
      show (v'.conns (v'.reqs (v'.conns a).r).c).evIn = true
      rw [((hs.step hstep).wired.front a ha).2]
      exact hin

/-- **No connection is forgotten**: while the worker lives, an open connection waits for something to
read or for room to write, or its upstream is open and is read from, or its response is complete; in a
run in which no upstream is closed while nothing else is waited for. -/
theorem connections_wait (h : Reached cfg (Meets cfg NotSilent) v) (hd : v.dead = none) (ha : v.Front a) :
    (v.conns a).evIn = true ∨ (v.conns a).evOut = true ∨
      (∃ u, (v.reqs (v.conns a).r).uc = some u ∧ v.Live u ∧ (v.conns u).evIn = true) ∨
      (v.reqs (v.conns a).r).responseDone = true := by
  have hall := h.invariant_of (fun _ => Reached.sound)
    (fun v => v.dead = none → ∀ a, v.Front a → Attentive (v.view a).s)
    (fun v hv _ a ha => absurd ha.1 (hv.closed a)) fun v l v' hs hi hgood hstep hd =>
      attentive_step hs hgood hstep hd (hi (step_cases hstep).1)
  obtain ⟨hwaits, hback⟩ := hall hd a ha
  have hw := h.sound.wired
  have hc : (v.view a).s.c = v.conns a := by
    show v.conns (v.reqs (v.conns a).r).c = v.conns a
    rw [(hw.front a ha).2]
  rw [hc] at hwaits
  rcases hwaits with hin | hout | huc | hdone
  · exact .inl hin
  · exact .inr (.inl hout)
  · obtain ⟨u, hu⟩ := Option.ne_none_iff_exists'.mp huc
    refine .inr (.inr (.inl ⟨u, hu, (hw.up a u ha hu).1, ?_⟩))
    have hin := hback huc
    rwa [show (v.view a).s.u = v.conns u from session_u hu] at hin
  · exact .inr (.inr (.inr hdone))

/-- A request is forwarded: its client is not listened to, and nothing is to be sent to it. -/
def forwardedRun : List Label :=
  opened ++ single 0 0 true { idleEnv with recvs := [.got (bytes "GET /p HTTP/1.1\r\n\r\n")] }

theorem connections_wait_forwarded :
    ∃ v, exec (step (serverConfig 60 [⟨true, bytes "/p"⟩])) boot forwardedRun = some v ∧
      (v.conns 0).evIn = false ∧ (v.conns 0).evOut = false ∧
      ((v.conns 0).evIn = true ∨ (v.conns 0).evOut = true ∨
        (∃ u, (v.reqs (v.conns 0).r).uc = some u ∧ v.Live u ∧ (v.conns u).evIn = true) ∨
        (v.reqs (v.conns 0).r).responseDone = true) := by
  have hrun : (exec (step (serverConfig 60 [⟨true, bytes "/p"⟩])) boot forwardedRun).any
      (fun v => decide (v.Front 0 ∧ v.dead = none ∧ (v.conns 0).evIn = false ∧
        (v.conns 0).evOut = false)) := by
    decide +kernel
  obtain ⟨v, hv, hend⟩ := exists_of_any hrun
  obtain ⟨hfront, hd, hin, hout⟩ := of_decide_eq_true hend
  have hreach := Reach.exec (.start boot_init)
    (show Transition.Along _ (Meets (serverConfig 60 [⟨true, bytes "/p"⟩]) NotSilent) _ forwardedRun by
      decide +kernel) hv
  exact ⟨v, hv, hin, hout, connections_wait hreach hd hfront⟩

end runs

end Server

end SyServer
