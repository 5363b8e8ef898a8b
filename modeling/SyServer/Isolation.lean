import SyServer.Registered

/-! # Connections do not interfere

A worker serves its connections from one loop and one memory.  A step is an event of one front
connection at most (`Server.event`), and leaves every other session, that is its request, its two
connections and what was done for it, as it was: `step_aside`.

With an upstream connection there is one way in which sessions depend on each other, the table of
connections, which can be full.  Where no location is proxied no handler looks at the shared data
(`act_blind`), and what happens to a session is what its own events do to it, whatever the other
connections of the worker do: `session_replays`. -/

namespace SyServer

open Transition (Reach Along exec party exec_append party_singleton along_true exists_of_any)

/-- What the handler of an event does to a session. -/
def Session.act (cfg : Config) (s : Session) : SessionEvent → Session
  | .request e => (handleRequest cfg e s).2
  | .response e => (settle s (handleResponse e s)).2
  | .upstream e => (settle s (handleUpstream e s)).2
  | .pass e => (settle s (handlePass e s)).2
  | .close => s.dropUpstream
  | .poll _ | .share _ => s

namespace Server

/-- The event of the front connection `b` that a step is. -/
def ownEvent (cfg : Config) (b : ConnAddr) (v : Server) (l : Label) : Option SessionEvent :=
  (v.event cfg l).bind fun x => if x.1 = b then some x.2 else none

section step

variable {cfg : Config} {v v' : Server} {l : Label} {b : ConnAddr} {ev : SessionEvent}

theorem ownEvent_eq : v.ownEvent cfg b l = some ev ↔ v.event cfg l = some (b, ev) := by
  unfold ownEvent
  cases v.event cfg l with
  | none => simp
  | some x =>
      obtain ⟨a, ev'⟩ := x
      by_cases h : a = b <;> simp [h]

/-- A handler that runs, and the session behind it. -/
theorem handle_served (hs : v.Sound) {a : ConnAddr} {isIn : Bool} {e : Env} (c : Clock)
    (hruns : v.runs cfg l = some (a, isIn, e)) :
    Served cfg v a isIn e (v.frontOf a) (v.handle cfg isIn c e a) := by
  obtain ⟨ha, hen⟩ := hs.runs hruns
  have hff := (hs.wired.frontOf ha).1
  exact handle_spec cfg hs.wired ha rfl (hs.base _ hff) (hs.tidy _ hff) hen

/-- An upstream connection can be closed while a connection is registered. -/
theorem closeBack_total {a : ConnAddr} (h : v.g.heap.size > 0) : ∃ v', v.closeBack a = .ok v' := by
  unfold closeBack Shared.closeBack Heap.unregister
  rw [if_pos h]
  exact ⟨_, rfl⟩

/-- What an enabled event does. -/
theorem act_of_step {w w' : View} (h : w.step cfg ev = some w')
    (hown : ∀ b, ev ≠ .poll b) (hshare : ∀ g, ev ≠ .share g) : w'.s = w.s.act cfg ev := by
  cases ev with
  | poll b => exact absurd rfl (hown b)
  | share g => exact absurd rfl (hshare g)
  | _ =>
      obtain ⟨-, h⟩ := Option.ite_none_right_eq_some.mp h
      cases h
      rfl

theorem eventOf_own (isIn : Bool) (e : Env) (side : Side) :
    (∀ b, eventOf isIn e side ≠ .poll b) ∧ ∀ g, eventOf isIn e side ≠ .share g := by
  cases side <;> cases isIn <;> simp [eventOf]

/-- **A step that is an event of the session** is that step of the session, next to a change of the
shared data. -/
theorem step_event (hs : v.Sound) (hstep : v.step cfg l = some v') (hev : v.event cfg l = some (b, ev)) :
    ∃ w, (v.view b).step cfg ev = some w ∧ w.s = (v.view b).s.act cfg ev ∧
      v'.session (v'.conns b).r = w.s.share v'.g := by
  unfold event at hev
  cases hruns : v.runs cfg l with
  | some x =>
      obtain ⟨a, isIn, e⟩ := x
      rw [hruns] at hev
      cases hev
      cases (step_cases hstep).2 with
      | poll | accept | sweep => cases hruns
      | drop _ hnone | skip _ _ hnone => rw [hruns] at hnone; cases hnone
      | @handle _ a' isIn' c e' items hruns' hclock hexp =>
          rw [hruns] at hruns'
          cases hruns'
          obtain ⟨p, s, -, hown, hsess⟩ := (handle_served hs c hruns).own
          obtain ⟨hpoll, hshare⟩ := eventOf_own isIn e (v.conns a).side
          exact ⟨⟨p, s⟩, hown, act_of_step hown hpoll hshare, hsess⟩
  | none =>
      rw [hruns] at hev
      obtain ⟨a, hsw, he⟩ := Option.map_eq_some_iff.mp hev
      cases he
      -- the step is a round of the sweep that closes an upstream connection on its own
      unfold sweeps at hsw
      split at hsw
      · rename_i now hbatch
        obtain ⟨⟨hdue, hlive, hside⟩, ha⟩ := Option.ite_none_right_eq_some.mp hsw
        cases ha
        obtain ⟨-, hnext⟩ := Option.ite_none_right_eq_some.mp hstep
        unfold next at hnext
        rw [hbatch] at hnext
        cases hnext
        obtain ⟨-, hfr, -, hup⟩ := hs.wired.frontOf hlive
        have hpend : v.pend (v.frontOf (v.g.heap.conns 1)) = false := by
          unfold pend
          rw [hbatch]
          rfl
        have huc : (v.view (v.frontOf (v.g.heap.conns 1))).s.r.uc ≠ none := by
          show (v.reqs (v.conns (v.frontOf (v.g.heap.conns 1))).r).uc ≠ none
          rw [hfr, hup hside]
          simp
        refine ⟨⟨false, (v.view (v.frontOf (v.g.heap.conns 1))).s.dropUpstream⟩,
          if_pos ⟨hpend, huc⟩, rfl, ?_⟩
        unfold sweepRound
        dsimp only
        rw [if_pos hdue, if_pos hlive]
        unfold closeConnection
        rw [hside]
        obtain ⟨v₂, hclose⟩ := closeBack_total hdue.1
        dsimp only
        rw [hclose]
        obtain ⟨hc, hsess, -⟩ := closeBack_spec hs.wired hlive hside hclose
        show v₂.session (v₂.conns (v.frontOf (v.g.heap.conns 1))).r =
          ((v.session (v.conns (v.frontOf (v.g.heap.conns 1))).r).dropUpstream).share v₂.g
        rw [hc.conns, hfr, hsess]
      · cases hsw

theorem step_own (hs : v.Sound) (hstep : v.step cfg l = some v') (hev : v.event cfg l = some (b, ev)) :
    v'.session (v'.conns b).r = ((v.view b).s.act cfg ev).share v'.g := by
  obtain ⟨w, -, hact, hsess⟩ := step_event hs hstep hev
  rw [hsess, hact]

/-- **A step that is no event of the session** leaves it as it was, but for the shared data. -/
theorem step_aside (hs : v.Sound) (hstep : v.step cfg l = some v') (hb : v.Front b) (hb' : v'.Front b)
    (hother : ∀ ev, v.event cfg l ≠ some (b, ev)) : Aside v v' b := by
  have hsame : ∀ {v' : Server}, SameMemory v v' → Aside v v' b := fun h =>
    h.aside ((h.front b).mpr hb)
  cases (step_cases hstep).2 with
  | poll | drop | skip => exact hsame ⟨rfl, rfl, rfl, rfl, rfl⟩
  | accept o =>
      rcases (openConnection_spec hs.wired o).sessions b hb' with h | ⟨hnew, -⟩
      · exact h
      · exact absurd hb.1 hnew
  | @handle _ a isIn c e items hruns =>
      have hne : b ≠ v.frontOf a := by
        rintro rfl
        exact hother _ (event_runs hruns)
      have h := (handle_served hs c hruns).others b hb hne
      exact ⟨h.front, h.conns, h.session⟩
  | sweep now hbatch =>
      revert hb'
      unfold sweepRound
      dsimp only
      split_ifs with hdue hlive
      · intro hb'
        cases hclose : v.closeConnection (v.g.heap.conns 1) with
        | error f => exact hsame ⟨rfl, rfl, rfl, rfl, rfl⟩
        | ok v₂ =>
            rw [hclose] at hb'
            have hb₂ : v₂.Front b := hb'
            unfold closeConnection at hclose
            cases hside : (v.conns (v.g.heap.conns 1)).side with
            | front =>
                rw [hside] at hclose
                obtain ⟨hc, haside⟩ := closeFront_spec hs.wired ⟨hlive, hside⟩ hclose
                have hne : b ≠ v.g.heap.conns 1 := fun e => ((hc.front b).mp hb₂).2 (.inl e)
                have h := haside b hb hne
                exact ⟨h.front, h.conns, h.session⟩
            | back =>
                rw [hside] at hclose
                obtain ⟨-, -, haside⟩ := closeBack_spec hs.wired hlive hside hclose
                obtain ⟨hff, hfr, -, -⟩ := hs.wired.frontOf hlive
                have hsw : v.sweeps cfg (.sweep now) = some (v.g.heap.conns 1) := by
                  unfold sweeps
                  rw [hbatch]
                  exact if_pos ⟨hdue, hlive, hside⟩
                have hne : (v.conns b).r ≠ (v.conns (v.g.heap.conns 1)).r := by
                  intro e
                  have hbf := hs.wired.front_inj hff hb (e.trans hfr.symm)
                  exact hother .close (hbf ▸ event_sweeps hsw)
                have h := haside b hb hne
                exact ⟨h.front, h.conns, h.session⟩
      · exact fun _ => hsame ⟨rfl, rfl, rfl, rfl, rfl⟩
      · exact fun _ => hsame ⟨rfl, rfl, rfl, rfl, rfl⟩

end step

end Server

/-! ### Handlers that do not look at the shared data -/

/-- The two outcomes differ in the shared data only. -/
inductive Alike : Except Fault (Rc × Session) → Except Fault (Rc × Session) → Prop
  | error (f : Fault) : Alike (.error f) (.error f)
  | ok (rc : Rc) (s : Session) (g : Shared) : Alike (.ok (rc, s)) (.ok (rc, s.share g))

/-- The two results of a call, and the two sessions it leaves, differ in the shared data only. -/
def AlikeLeft (x y : Except Fault Rc × Session) : Prop := y.1 = x.1 ∧ ∃ g, y.2 = x.2.share g

section blind

variable {α : Type} {cfg : Config} {e : Env} {s : Session}

/-- Behind something that does not depend on the shared data. -/
theorem alike_of_eq {x : Except Fault α} {k k' : α → Except Fault (Rc × Session)}
    (h : ∀ a, x = .ok a → Alike (k a) (k' a)) : Alike (x >>= k) (x >>= k') := by
  cases x with
  | error f => exact .error f
  | ok a => exact h a rfl

theorem Alike.bind {x y : Except Fault (Rc × Session)} {k k' : Rc × Session → Except Fault (Rc × Session)}
    (h : Alike x y) (hk : ∀ rc s g, Alike (k (rc, s)) (k' (rc, s.share g))) :
    Alike (x >>= k) (y >>= k') := by
  cases h with
  | error f => exact .error f
  | ok rc s g => exact hk rc s g

theorem responseBuildErr_blind (date : List UInt8) (status : ℕ) (s : Session) (g : Shared) :
    Alike (responseBuildErr date status s) (responseBuildErr date status (s.share g)) := by
  unfold responseBuildErr
  exact alike_of_eq fun _ _ => alike_of_eq fun _ _ => .ok _ _ g

theorem matchLocation_mem {m : Mem} {p : Ptr} {loc : Location} {locs : List Location}
    (h : matchLocation m p locs = .ok (some loc)) : loc ∈ locs := by
  induction locs with
  | nil => cases h
  | cons l locs ih =>
      obtain ⟨eq, -, h2⟩ := bind_ok h
      split_ifs at h2
      · cases h2; exact List.mem_cons_self
      · exact List.mem_cons_of_mem _ (ih h2)

theorem requestHandleUri_blind (hcfg : ∀ loc ∈ cfg.locations, loc.pass = false) (s : Session)
    (g : Shared) : Alike (requestHandleUri cfg e s) (requestHandleUri cfg e (s.share g)) := by
  unfold requestHandleUri
  refine alike_of_eq fun r _ => alike_of_eq fun loc hloc => ?_
  cases loc with
  | none => exact responseBuildErr_blind _ _ _ g
  | some loc =>
      have hpass := hcfg loc (matchLocation_mem hloc)
      dsimp only
      rw [hpass, if_neg (by simp), if_neg (by simp)]
      refine alike_of_eq fun p _ => ?_
      obtain ⟨r, path⟩ := p
      dsimp only
      cases e.resource path with
      | missing => exact responseBuildErr_blind _ _ _ g
      | file fd size => exact .ok .ok _ (g.openFd fd)
      | directory dir index =>
          cases index with
          | none => exact responseBuildErr_blind e.date 403 _ ((g.openFd dir).closeFd dir)
          | some p => exact .ok .ok _ (((g.openFd dir).openFd p.1).closeFd dir)

theorem requestHandleRequestLine_blind (hcfg : ∀ loc ∈ cfg.locations, loc.pass = false) (s : Session)
    (g : Shared) :
    Alike (requestHandleRequestLine cfg e s) (requestHandleRequestLine cfg e (s.share g)) := by
  unfold requestHandleRequestLine
  refine alike_of_eq fun p _ => ?_
  obtain ⟨err, r⟩ := p
  dsimp only
  split_ifs
  · exact .ok _ _ g
  · exact responseBuildErr_blind _ _ _ g
  · exact responseBuildErr_blind _ _ _ g
  · exact requestHandleUri_blind hcfg _ g

theorem Processor.run_blind (p : Processor) (date : List UInt8) (offset : HeaderField) (s : Session)
    (g : Shared) : Alike (p.run date offset s) (p.run date offset (s.share g)) := by
  cases p with
  | generic | host | accept | ifModifiedSince => exact .ok _ _ g
  | connection => exact alike_of_eq fun _ _ => .ok _ _ g
  | tEncoding =>
      refine alike_of_eq fun te _ => ?_
      cases te with
      | none => exact responseBuildErr_blind _ _ _ g
      | some te => exact .ok _ _ g
  | contentLength =>
      refine alike_of_eq fun len _ => ?_
      split_ifs
      · exact responseBuildErr_blind _ _ _ g
      · exact .ok _ _ g

theorem headersLoop_blind (n : ℕ) (s : Session) (g : Shared) :
    Alike (headersLoop cfg e n s) (headersLoop cfg e n (s.share g)) := by
  induction n generalizing s g with
  | zero => exact .ok _ _ g
  | succ n ih =>
      refine alike_of_eq fun p _ => ?_
      obtain ⟨err, r⟩ := p
      dsimp only
      cases err with
      | again => exact .ok _ _ g
      | emptyLine => exact .ok _ _ g
      | ok =>
          dsimp only
          cases cfg.headerGet r.mem r.headerName with
          | none => exact ih _ g
          | some header =>
              refine (header.processor.run_blind _ _ _ g).bind fun rc s g => ?_
              dsimp only
              split_ifs
              · exact .ok _ _ g
              · exact ih s g
      | _ => exact .error _

theorem requestHandleBody_blind (s : Session) (g : Shared) :
    Alike (requestHandleBody e s) (requestHandleBody e (s.share g)) := by
  unfold requestHandleBody bodyRespond enableUpstreamOut
  rw [show (s.share g).r = s.r from rfl]
  split_ifs with hte
  · exact .error _
  obtain ⟨err, r, hparse⟩ : ∃ err r, parseRequestBodyIdentity s.r = (err, r) := ⟨_, _, rfl⟩
  rw [hparse]
  dsimp only
  cases err with
  | again =>
      dsimp only
      split_ifs
      · exact .error _
      · exact .ok .again _ g
  | ok =>
      dsimp only
      split_ifs with huc
      · cases responseBuild e.date r with
        | error f => exact .error f
        | ok r => exact .ok .ok _ (g.closeFile _)
      · exact .error _
      · exact .ok .ok _ g
  | _ => exact responseBuildErr_blind _ _ _ g

theorem InHandler.run_blind (hcfg : ∀ loc ∈ cfg.locations, loc.pass = false) (h : InHandler) (s : Session)
    (g : Shared) : Alike (h.run cfg e s) (h.run cfg e (s.share g)) := by
  cases h with
  | requestLine => exact requestHandleRequestLine_blind hcfg s g
  | headers => exact headersLoop_blind _ s g
  | body => exact requestHandleBody_blind s g

theorem requestLoop_blind (hcfg : ∀ loc ∈ cfg.locations, loc.pass = false) (n : ℕ) (s : Session)
    (g : Shared) : AlikeLeft (requestLoop cfg e n s) (requestLoop cfg e n (s.share g)) := by
  induction n generalizing s g with
  | zero => exact ⟨rfl, g, rfl⟩
  | succ n ih =>
      have hrun := s.r.inHandler.run_blind (e := e) hcfg (s.note (.called s.r.inHandler s.r.state)) g
      unfold requestLoop
      dsimp only
      rw [show ((s.share g).note (.called (s.share g).r.inHandler (s.share g).r.state)) =
        (s.note (.called s.r.inHandler s.r.state)).share g from rfl]
      rw [show ((s.note (.called s.r.inHandler s.r.state)).share g).r.inHandler = s.r.inHandler from rfl,
        show (s.note (.called s.r.inHandler s.r.state)).r.inHandler = s.r.inHandler from rfl]
      generalize s.r.inHandler.run cfg e (s.note (.called s.r.inHandler s.r.state)) = x at hrun ⊢
      generalize s.r.inHandler.run cfg e ((s.note (.called s.r.inHandler s.r.state)).share g) = y at hrun ⊢
      cases hrun with
      | error f => exact ⟨rfl, g, rfl⟩
      | ok rc s' g' =>
          dsimp only
          rw [show (s'.share g').r = s'.r from rfl]
          split_ifs
          · exact ih s' g'
          · exact ⟨rfl, g', rfl⟩

theorem handleRequest_blind (hcfg : ∀ loc ∈ cfg.locations, loc.pass = false) (s : Session)
    (g : Shared) : AlikeLeft (handleRequest cfg e s) (handleRequest cfg e (s.share g)) := by
  unfold handleRequest
  dsimp only
  rw [show (s.share g).r = s.r from rfl]
  split_ifs
  · exact ⟨rfl, g, rfl⟩
  · exact requestLoop_blind hcfg 3 _ g

theorem responseBufferSent_blind (s : Session) (g : Shared) :
    responseBufferSent (s.share g) = ((responseBufferSent s).1, (responseBufferSent s).2.share g) := by
  unfold responseBufferSent
  rw [show (s.share g).r = s.r from rfl]
  split_ifs <;> rfl

theorem sendResponseBuffer_blind (s : Session) (g : Shared) :
    sendResponseBuffer e (s.share g) = ((sendResponseBuffer e s).1, (sendResponseBuffer e s).2.share g) := by
  unfold sendResponseBuffer
  dsimp only
  rw [show (s.share g).r = s.r from rfl]
  by_cases hok : (s.r.sb.send e.sends).1 = .ok
  · rw [if_pos hok, if_pos hok]
    exact responseBufferSent_blind ({ s with
      r := { s.r with sb := (s.r.sb.send e.sends).2.1 } }.note
        (.delivered (.buffer (s.r.sb.send e.sends).2.2))) g
  · rw [if_neg hok, if_neg hok]
    split_ifs <;> rfl

theorem OutHandler.run_blind (h : OutHandler) (s : Session) (g : Shared) :
    Alike (h.run e s) (h.run e (s.share g)) := by
  cases h with
  | buffer =>
      show Alike (.ok (sendResponseBuffer e s)) (.ok (sendResponseBuffer e (s.share g)))
      rw [sendResponseBuffer_blind]
      exact .ok _ _ g
  | file =>
      show Alike (sendResponseFile e s) (sendResponseFile e (s.share g))
      unfold sendResponseFile
      dsimp only
      rw [show (s.share g).r = s.r from rfl]
      split_ifs
      · exact .error _
      · exact .ok .ok _ (g.closeFile s.r.resourceFd)
      · exact .ok _ _ g

theorem responseLoop_blind (n : ℕ) (s : Session) (g : Shared) :
    Alike (responseLoop e n s) (responseLoop e n (s.share g)) := by
  induction n generalizing s g with
  | zero => exact .ok _ _ g
  | succ n ih =>
      refine (s.r.outHandler.run_blind s g).bind fun rc s g => ?_
      dsimp only
      rw [show (s.share g).r = s.r from rfl]
      split_ifs
      · exact ih s g
      · exact .ok _ _ g

theorem handleResponse_blind (s : Session) (g : Shared) :
    Alike (handleResponse e s) (handleResponse e (s.share g)) := by
  refine (responseLoop_blind 2 s g).bind fun rc s g => ?_
  dsimp only
  rw [show (s.share g).r = s.r from rfl]
  split_ifs
  · exact .ok _ s.clear g
  · exact .ok _ _ g
  · exact .ok _ _ g

theorem handlePass_blind (s : Session) (g : Shared) :
    Alike (handlePass e s) (handlePass e (s.share g)) := by
  unfold handlePass
  dsimp only
  rw [show (s.share g).r = s.r from rfl]
  split_ifs
  · exact .ok .ok _ g
  · exact (responseBuildErr_blind e.date 503 _ g).bind fun _ _ g => .ok _ _ g
  · exact .ok _ _ g

theorem handleUpstream_blind (s : Session) (g : Shared) :
    Alike (handleUpstream e s) (handleUpstream e (s.share g)) := by
  unfold handleUpstream
  dsimp only
  rw [show (s.share g).r = s.r from rfl]
  split_ifs
  · exact .ok .error _ g
  · exact (responseBuildErr_blind e.date 503 _ g).bind fun _ _ g => .ok .error _ g
  · exact .ok _ _ g

/-- A settled call. -/
theorem Alike.settle {x y : Except Fault (Rc × Session)} (h : Alike x y) (g : Shared) :
    AlikeLeft (settle s x) (settle (s.share g) y) := by
  cases h with
  | error f => exact ⟨rfl, g, rfl⟩
  | ok rc s' g' => exact ⟨rfl, g', rfl⟩

/-- **No handler looks at the shared data** where no location is proxied. -/
theorem act_blind (hcfg : ∀ loc ∈ cfg.locations, loc.pass = false) (s : Session) (g : Shared)
    (ev : SessionEvent) : ∃ g', (s.share g).act cfg ev = (s.act cfg ev).share g' := by
  cases ev with
  | request e => exact (handleRequest_blind hcfg s g).2
  | response e => exact ((handleResponse_blind s g).settle g).2
  | upstream e => exact ((handleUpstream_blind s g).settle g).2
  | pass e => exact ((handlePass_blind s g).settle g).2
  | close | poll | share => exact ⟨g, rfl⟩

end blind

/-! ### Runs of the worker -/

namespace Server

/-- A run in all of whose states the front connection `b` is open. -/
structure OpenRun (cfg : Config) (b : ConnAddr) (v : Server) (ls : List Label) (v' : Server) : Prop where
  run : exec (step cfg) v ls = some v'
  along : Along (step cfg) (fun w _ => w.Front b) v ls
  last : v'.Front b

section runs

variable {cfg : Config} {v v' v₁ v₂ v₁' v₂' : Server} {b : ConnAddr} {ls ls₁ ls₂ : List Label}

/-- The first step of such a run, and the rest. -/
theorem OpenRun.uncons {l : Label} (h : OpenRun cfg b v (l :: ls) v') :
    ∃ t, v.step cfg l = some t ∧ v.Front b ∧ t.Front b ∧ OpenRun cfg b t ls v' := by
  obtain ⟨hrun, halong, hlast⟩ := h
  unfold exec at hrun
  cases hs : step cfg v l with
  | none => rw [hs] at hrun; cases hrun
  | some t =>
      rw [hs] at hrun
      have hrest := halong.2 t hs
      refine ⟨t, rfl, halong.1, ?_, hrun, hrest, hlast⟩
      cases ls with
      | nil => cases hrun; exact hlast
      | cons l' ls => exact hrest.1

theorem OpenRun.both (h : OpenRun cfg b v ls v') :
    Along (step cfg) (fun w l => w.Front b ∧ ∀ w', w.step cfg l = some w' → w'.Front b) v ls := by
  induction ls generalizing v with
  | nil => trivial
  | cons l ls ih =>
      obtain ⟨t, hs, hv, ht, hrest⟩ := h.uncons
      refine ⟨⟨hv, fun w' hw => ?_⟩, fun w' hw => ?_⟩
      · rw [hs] at hw
        cases hw
        exact ht
      · rw [hs] at hw
        cases hw
        exact ih hrest

/-- A run without an event of the session. -/
theorem OpenRun.aside (hs : v.Sound) (h : OpenRun cfg b v ls v')
    (hnone : party (step cfg) (ownEvent cfg b) v ls = []) :
    v'.conns b = v.conns b ∧ v'.session (v.conns b).r = (v.session (v.conns b).r).share v'.g := by
  induction ls generalizing v with
  | nil =>
      cases h.run
      exact ⟨rfl, rfl⟩
  | cons l ls ih =>
      obtain ⟨t, hstep, hv, ht, hrest⟩ := h.uncons
      unfold party at hnone
      rw [hstep] at hnone
      obtain ⟨hown, hnone⟩ := List.append_eq_nil_iff.mp hnone
      have haside := step_aside hs hstep hv ht fun ev hev => by
        rw [ownEvent_eq.mpr hev] at hown
        cases hown
      obtain ⟨hconns, hsession⟩ := ih (hs.step hstep) hrest hnone
      refine ⟨hconns.trans haside.conns, ?_⟩
      rw [haside.conns, haside.session] at hsession
      exact hsession

/-- **A session is changed by its own events only**: in a run without an event of the front connection
`b`, its request, what was done for it, and its two connections stay as they are. -/
theorem unserved_unchanged {good : Server → Label → Prop} (h : Reached cfg good v)
    (hopen : OpenRun cfg b v ls v') (hnone : party (step cfg) (ownEvent cfg b) v ls = []) :
    v'.conns b = v.conns b ∧ v'.reqs (v.conns b).r = v.reqs (v.conns b).r ∧
      v'.log (v.conns b).r = v.log (v.conns b).r ∧
      ∀ u, (v.reqs (v.conns b).r).uc = some u → v'.conns u = v.conns u := by
  obtain ⟨hconns, hsession⟩ := hopen.aside h.sound hnone
  have hr : v'.reqs (v.conns b).r = v.reqs (v.conns b).r := congrArg Session.r hsession
  refine ⟨hconns, hr, congrArg Session.log hsession, fun u hu => ?_⟩
  have hu' : (v'.reqs (v.conns b).r).uc = some u := by rw [hr]; exact hu
  rw [← session_u hu', ← session_u hu, hsession]
  rfl

/-- A second connection is accepted, asks for something, and is answered. -/
def otherRun : List Label :=
  round 0 [.listener] [.accept ⟨6, true, 0⟩, .accepted] ++
  single 0 1 true { idleEnv with recvs := [.got (bytes "GET / HTTP/1.1\r\n\r\n")] } ++
  single 0 1 false { idleEnv with sends := [.sent 20] }

/-- The first connection of a worker while the second one is served. -/
theorem otherRun_open : ∃ v v',
    exec (step (serverConfig 60 [⟨false, bytes "/"⟩])) boot opened = some v ∧
      OpenRun (serverConfig 60 [⟨false, bytes "/"⟩]) 0 v otherRun v' ∧
      party (step (serverConfig 60 [⟨false, bytes "/"⟩]))
        (ownEvent (serverConfig 60 [⟨false, bytes "/"⟩]) 0) v otherRun = [] ∧
      v'.batch = none ∧ v'.g.heap.isExpired 60 0 0 = false := by
  have hrun : (exec (step (serverConfig 60 [⟨false, bytes "/"⟩])) boot opened).any (fun v =>
      (exec (step (serverConfig 60 [⟨false, bytes "/"⟩])) v otherRun).any fun v' =>
        decide (Along (step (serverConfig 60 [⟨false, bytes "/"⟩])) (fun w _ => w.Front 0) v otherRun ∧
          v'.Front 0 ∧ v'.batch = none ∧ v'.g.heap.isExpired 60 0 0 = false ∧
          (party (step (serverConfig 60 [⟨false, bytes "/"⟩]))
            (ownEvent (serverConfig 60 [⟨false, bytes "/"⟩]) 0) v otherRun).isEmpty = true)) = true := by
    decide +kernel
  obtain ⟨v, hv, hv'⟩ := exists_of_any hrun
  obtain ⟨v', hrun', hend⟩ := exists_of_any hv'
  obtain ⟨halong, hfront, hbatch, hexp, hnone⟩ := of_decide_eq_true hend
  exact ⟨v, v', hv, ⟨hrun', halong, hfront⟩, List.isEmpty_iff.mp hnone, hbatch, hexp⟩

theorem unserved_unchanged_other : ∃ v v',
    exec (step (serverConfig 60 [⟨false, bytes "/"⟩])) boot opened = some v ∧
      exec (step (serverConfig 60 [⟨false, bytes "/"⟩])) v otherRun = some v' ∧
      v'.conns 0 = v.conns 0 ∧ v'.reqs (v.conns 0).r = v.reqs (v.conns 0).r ∧
      v'.log (v.conns 0).r = v.log (v.conns 0).r ∧
      ∀ u, (v.reqs (v.conns 0).r).uc = some u → v'.conns u = v.conns u := by
  obtain ⟨v, v', hv, hopen, hnone, -, -⟩ := otherRun_open
  have hreach := Reach.exec (.start boot_init) (along_true _ _) hv
  exact ⟨v, v', hv, hopen.run, unserved_unchanged hreach hopen hnone⟩

/-- The events of a session, with the shared data set back behind each. -/
theorem foldl_share (hcfg : ∀ loc ∈ cfg.locations, loc.pass = false) (evs : List SessionEvent)
    (s : Session) (g : Shared) :
    evs.foldl (fun s ev => (s.act cfg ev).share g) (s.share g) =
      (evs.foldl (Session.act cfg) s).share g := by
  induction evs generalizing s with
  | nil => rfl
  | cons ev evs ih =>
      obtain ⟨g', h⟩ := act_blind hcfg s g ev
      rw [List.foldl_cons, List.foldl_cons, h]
      exact ih (s.act cfg ev)

/-- **A session is what its own events make of it**, where no location is proxied. -/
theorem session_replays (hcfg : ∀ loc ∈ cfg.locations, loc.pass = false) (hs : v.Sound)
    (hopen : OpenRun cfg b v ls v') (g : Shared) :
    (v'.view b).s.share g =
      ((party (step cfg) (ownEvent cfg b) v ls).foldl (Session.act cfg) (v.view b).s).share g := by
  rw [← foldl_share hcfg]
  refine Transition.observe_exec (ownEvent cfg b) (fun w => (w.view b).s.share g)
    (fun s ev => (s.act cfg ev).share g) (fun w l w' hgood hstep => ?_)
    (hopen.both.keep (fun _ _ _ hw hstep => Sound.step hw hstep) hs) hopen.run
  obtain ⟨hsw, hf, hf'⟩ := hgood
  cases hown : ownEvent cfg b w l with
  | none =>
      have haside := step_aside hsw hstep hf (hf' w' hstep) fun ev hev => by
        rw [ownEvent_eq.mpr hev] at hown
        cases hown
      show (w'.session (w'.conns b).r).share g = (w.session (w.conns b).r).share g
      rw [haside.conns, haside.session]
      rfl
  | some ev =>
      have h := step_own hsw hstep (ownEvent_eq.mp hown)
      obtain ⟨g', hblind⟩ := act_blind hcfg (w.view b).s g ev
      show (w'.session (w'.conns b).r).share g = (((w.view b).s.share g).act cfg ev).share g
      rw [h, hblind]
      rfl

/-- **What a client gets does not depend on the others**, where no location is proxied: two workers
in which the session of `b` is the same, and in which its own events are the same, make the same of it,
whatever else they serve. -/
theorem client_independent (hcfg : ∀ loc ∈ cfg.locations, loc.pass = false)
    {good₁ good₂ : Server → Label → Prop} (h₁ : Reached cfg good₁ v₁) (h₂ : Reached cfg good₂ v₂)
    (hopen₁ : OpenRun cfg b v₁ ls₁ v₁') (hopen₂ : OpenRun cfg b v₂ ls₂ v₂')
    (hsame : ∃ g, (v₂.view b).s = (v₁.view b).s.share g)
    (hown : party (step cfg) (ownEvent cfg b) v₁ ls₁ = party (step cfg) (ownEvent cfg b) v₂ ls₂) :
    ∃ g, (v₂'.view b).s = (v₁'.view b).s.share g := by
  obtain ⟨g, hsame⟩ := hsame
  refine ⟨v₂'.g, ?_⟩
  have hreplay₁ := session_replays hcfg h₁.sound hopen₁ v₂'.g
  have hreplay₂ := session_replays hcfg h₂.sound hopen₂ v₂'.g
  rw [hsame, ← hown] at hreplay₂
  rw [hreplay₁, ← foldl_share hcfg]
  rw [← foldl_share hcfg] at hreplay₂
  exact hreplay₂

/-- The handler of an `EPOLLIN` that is next is an event of its session. -/
theorem ownEvent_serveIn {c : Clock} {e : Env} {out : Bool} {rest : List Item}
    (hbatch : v.batch = some (.conn b true out :: rest)) (hside : (v.conns b).side = .front)
    (hexp : v.g.heap.isExpired cfg.timeout c.check b = false) :
    v.ownEvent cfg b (.serveIn c e) = some (.request e) := by
  have hruns : v.runs cfg (.serveIn c e) = some (b, true, e) := by
    unfold runs
    rw [hbatch]
    exact if_neg (by rw [hexp]; simp)
  rw [ownEvent_eq, event_runs hruns]
  unfold frontOf
  rw [hside]
  rfl

/-- The first connection of a worker has sent something. -/
def asked : List Label := [.poll [.conn 0 true false]]

/-- Its request is read. -/
def answered : Label :=
  .serveIn (.at 0) { idleEnv with recvs := [.got (bytes "GET /nothing HTTP/1.1\r\n\r\n")] }

theorem client_independent_two : ∃ v₁ v₂ v₁' v₂',
    exec (step (serverConfig 60 [⟨false, bytes "/"⟩])) boot (opened ++ asked) = some v₁ ∧
      exec (step (serverConfig 60 [⟨false, bytes "/"⟩])) boot (opened ++ otherRun ++ asked) = some v₂ ∧
      exec (step (serverConfig 60 [⟨false, bytes "/"⟩])) v₁ [answered] = some v₁' ∧
      exec (step (serverConfig 60 [⟨false, bytes "/"⟩])) v₂ [answered] = some v₂' ∧
      0 < (v₁'.reqs 0).sb.size ∧ ∃ g, (v₂'.view 0).s = (v₁'.view 0).s.share g := by
  have hrun : (exec (step (serverConfig 60 [⟨false, bytes "/"⟩])) boot opened).any (fun v =>
      (exec (step (serverConfig 60 [⟨false, bytes "/"⟩])) v asked).any fun v₁ =>
      (exec (step (serverConfig 60 [⟨false, bytes "/"⟩])) v (otherRun ++ asked)).any fun v₂ =>
      (exec (step (serverConfig 60 [⟨false, bytes "/"⟩])) v₁ [answered]).any fun v₁' =>
      (exec (step (serverConfig 60 [⟨false, bytes "/"⟩])) v₂ [answered]).any fun v₂' =>
        decide ((Along (step (serverConfig 60 [⟨false, bytes "/"⟩])) (fun w _ => w.Front 0) v asked ∧
          Along (step (serverConfig 60 [⟨false, bytes "/"⟩])) (fun w _ => w.Front 0) v (otherRun ++ asked) ∧
          (party (step (serverConfig 60 [⟨false, bytes "/"⟩]))
            (ownEvent (serverConfig 60 [⟨false, bytes "/"⟩]) 0) v asked).isEmpty = true ∧
          (party (step (serverConfig 60 [⟨false, bytes "/"⟩]))
            (ownEvent (serverConfig 60 [⟨false, bytes "/"⟩]) 0) v (otherRun ++ asked)).isEmpty = true) ∧
          (v₁.Front 0 ∧ v₁.batch = some [.conn 0 true false] ∧ v₁.g.heap.isExpired 60 0 0 = false) ∧
          (v₂.Front 0 ∧ v₂.batch = some [.conn 0 true false] ∧ v₂.g.heap.isExpired 60 0 0 = false) ∧
          v₁'.Front 0 ∧ v₂'.Front 0 ∧ 0 < (v₁'.reqs 0).sb.size)) = true := by
    decide +kernel
  obtain ⟨v, hv, hrun⟩ := exists_of_any hrun
  obtain ⟨v₁, hv₁, hrun⟩ := exists_of_any hrun
  obtain ⟨v₂, hv₂, hrun⟩ := exists_of_any hrun
  obtain ⟨v₁', hv₁', hrun⟩ := exists_of_any hrun
  obtain ⟨v₂', hv₂', hrun⟩ := exists_of_any hrun
  obtain ⟨⟨ha₁, ha₂, hn₁, hn₂⟩, ⟨hf₁, hb₁, he₁⟩, ⟨hf₂, hb₂, he₂⟩, hf₁', hf₂', hsize⟩ :=
    of_decide_eq_true hrun
  have hreach : Reached _ (fun _ _ => True) v := Reach.exec (.start boot_init) (along_true _ _) hv
  have hreach₁ : Reached _ (fun _ _ => True) v₁ := hreach.exec (along_true _ _) hv₁
  have hreach₂ : Reached _ (fun _ _ => True) v₂ := hreach.exec (along_true _ _) hv₂
  have hopen₁ : OpenRun _ 0 v asked v₁ := ⟨hv₁, ha₁, hf₁⟩
  have hopen₂ : OpenRun _ 0 v (otherRun ++ asked) v₂ := ⟨hv₂, ha₂, hf₂⟩
  obtain ⟨hc₁, hs₁⟩ := hopen₁.aside hreach.sound (List.isEmpty_iff.mp hn₁)
  obtain ⟨hc₂, hs₂⟩ := hopen₂.aside hreach.sound (List.isEmpty_iff.mp hn₂)
  have hsame : ∃ g, (v₂.view 0).s = (v₁.view 0).s.share g := by
    refine ⟨v₂.g, ?_⟩
    show v₂.session (v₂.conns 0).r = (v₁.session (v₁.conns 0).r).share v₂.g
    rw [hc₁, hc₂, hs₁, hs₂]
    rfl
  refine ⟨v₁, v₂, v₁', v₂', ?_, ?_, hv₁', hv₂', hsize,
    client_independent (by simp [serverConfig]) hreach₁ hreach₂
      ⟨hv₁', ⟨hf₁, fun _ _ => trivial⟩, hf₁'⟩ ⟨hv₂', ⟨hf₂, fun _ _ => trivial⟩, hf₂'⟩ hsame ?_⟩
  · rw [exec_append, hv]
    exact hv₁
  · rw [List.append_assoc, exec_append, hv]
    exact hv₂
  · rw [party_singleton, party_singleton]
    unfold answered
    rw [ownEvent_serveIn hb₁ hf₁.2 he₁, ownEvent_serveIn hb₂ hf₂.2 he₂]

end runs

end Server

end SyServer
