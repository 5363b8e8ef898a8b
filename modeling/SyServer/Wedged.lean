import SyServer.Alive
import SyServer.Relay

/-! # Progress on the client's socket

A call of `sy_handle_request` while `EVENTS_IN` is on and bytes are there takes some of them, unless
`rb` is full.  Then `sy_buffer_recv` answers `AGAIN` without a `recv`, the parsers have nothing to
look at (`Drained`) and answer `AGAIN` too, and nothing changes: a request whose headers are longer
than `rb` is never answered, and each `EPOLLIN` keeps its connection from expiring. -/

namespace SyServer

open Relation (ReflTransGen)
open Transition (Reach exec along_true exists_of_any)

variable {cfg : Config}

/-- One call of `sy_handle_request` takes a byte from the socket, disables `EVENTS_IN`, or answers
`ERROR`. -/
def Progresses (cfg : Config) (e : Env) (s : Session) : Prop :=
  (s.r.rb.recv e.recvs).2.2 ≠ [] ∨ (handleRequest cfg e s).2.c.evIn = false ∨
    (handleRequest cfg e s).1 = .ok .error

instance (cfg : Config) (e : Env) (s : Session) : Decidable (Progresses cfg e s) :=
  inferInstanceAs (Decidable (_ ∨ _ ∨ _))

/-! ### Where the loop of the handlers stops -/

section handlers

variable {e : Env} {s s' : Session} {rc : Rc}

/-- A move leaves `EVENTS_IN` on only if it was on, and then leaves `body_done` alone. -/
theorem ClientMove.evIn (hm : ClientMove cfg s s') (hin : s'.c.evIn = true) :
    s.c.evIn = true ∧ s'.r.bodyDone = s.r.bodyDone := by
  have huri : ∀ {t t' : Session}, UriMove t t' → t'.c.evIn = true →
      t.c.evIn = true ∧ t'.r.bodyDone = t.r.bodyDone := by
    intro t t' hm ht
    cases hm with
    | proxied => exact ⟨ht, rfl⟩
    | found => exact ⟨ht, rfl⟩
    | notFound => cases ht
    | refused => cases ht
    | missing => cases ht
  cases hm with
  | called => exact ⟨hin, rfl⟩
  | lineMore hopen h1 hp =>
      obtain ⟨_, _, _, _, _, _, rfl, -⟩ := parseRequestLine_frame hp
      exact ⟨hin, rfl⟩
  | lineError => cases hin
  | @lineOk r s' k hopen h1 hp hm =>
      obtain ⟨h2, h3⟩ := huri hm hin
      refine ⟨h2, h3.trans ?_⟩
      obtain ⟨_, _, _, _, _, _, rfl, -⟩ := parseRequestLine_frame hp
      rfl
  | headersMore h1 hp =>
      obtain ⟨_, _, _, _, rfl, -, -⟩ := parseHeaderLine_frame hp
      exact ⟨hin, rfl⟩
  | header h1 hp =>
      obtain ⟨_, _, _, _, rfl, -, -⟩ := parseHeaderLine_frame hp
      exact ⟨hin, rfl⟩
  | headerSet hs k te n h1 hp hget hk =>
      obtain ⟨_, _, _, _, rfl, -, -⟩ := parseHeaderLine_frame hp
      exact ⟨hin, rfl⟩
  | headerError => cases hin
  | headersEnd h1 hp =>
      obtain ⟨_, _, _, _, rfl, -, -⟩ := parseHeaderLine_frame hp
      exact ⟨hin, rfl⟩
  | bodyMore => cases hin
  | bodyRelayed => cases hin
  | bodyLocal => cases hin

theorem moves_evIn (hm : ReflTransGen (ClientMove cfg) s s') (hin : s'.c.evIn = true) :
    s.c.evIn = true ∧ s'.r.bodyDone = s.r.bodyDone := by
  induction hm with
  | refl => exact ⟨hin, rfl⟩
  | tail _ hm ih =>
      obtain ⟨h1, h2⟩ := hm.evIn hin
      obtain ⟨h3, h4⟩ := ih h1
      exact ⟨h3, h2.trans h4⟩

/-- The body handler disables `EVENTS_IN`. -/
theorem requestHandleBody_evIn (h : requestHandleBody e s = .ok (rc, s')) : s'.c.evIn = false := by
  have hout : ∀ {t t' : Session}, enableUpstreamOut t = .ok t' → t'.c = t.c := by
    intro t t' ht
    unfold enableUpstreamOut at ht
    split_ifs at ht
    cases ht
    rfl
  have hrespond : ∀ {t t' : Session}, bodyRespond e t = .ok t' → t'.c.evIn = t.c.evIn := by
    intro t t' ht
    unfold bodyRespond at ht
    split_ifs at ht
    · obtain ⟨r, -, h2⟩ := bind_ok ht
      cases h2
      rfl
    · rw [hout ht]
  unfold requestHandleBody at h
  split_ifs at h
  cases hp : parseRequestBodyIdentity s.r with
  | mk err r =>
      rw [hp] at h
      dsimp only at h
      cases err with
      | again =>
          obtain ⟨s₁, h1, h2⟩ := bind_ok h
          cases h2
          rw [hout h1]
          rfl
      | ok =>
          obtain ⟨s₁, h1, h2⟩ := bind_ok h
          cases h2
          exact hrespond h1
      | _ =>
          obtain ⟨-, b, -, rfl⟩ := responseBuildErr_spec h
          rfl

theorem requestHandleUri_ok (h : requestHandleUri cfg e s = .ok (rc, s')) : rc = .ok := by
  obtain ⟨r, -, h2⟩ := bind_ok h
  obtain ⟨loc, -, h3⟩ := bind_ok h2
  cases loc with
  | none => exact (responseBuildErr_spec h3).1
  | some loc =>
      dsimp only at h3
      split_ifs at h3
      · obtain ⟨⟨uc, s₁⟩, -, h5⟩ := bind_ok h3
        dsimp only at h5
        split_ifs at h5
        · exact (responseBuildErr_spec h5).1
        · cases h5
          rfl
      · obtain ⟨⟨r, path⟩, -, h5⟩ := bind_ok h3
        dsimp only at h5
        split at h5
        · exact (responseBuildErr_spec h5).1
        · exact (responseBuildErr_spec h5).1
        · cases h5
          rfl
        · cases h5
          rfl

/-- The header loop stops before the end of the headers where `rb` is empty. -/
theorem headersLoop_drained {n : ℕ} (hn : s.r.rb.size < n)
    (h : headersLoop cfg e n s = .ok (rc, s')) (hrc : rc ≠ .ok) :
    s'.r.rb.begin = s'.r.rb.end_ ∧ s'.r.inHandler = s.r.inHandler := by
  induction n generalizing s with
  | zero => omega
  | succ n ih =>
      obtain ⟨⟨err, r⟩, hp, h2⟩ := bind_ok h
      dsimp only at h2
      cases err with
      | again =>
          cases h2
          rcases parseHeaderLine_cases hp with ⟨-, r₁, hf, rfl, -⟩ | ⟨k, r₁, r₂, hrc, -⟩
          · obtain ⟨_, _, _, b, rfl, -⟩ := hf
            exact ⟨rfl, rfl⟩
          · split_ifs at hrc
      | emptyLine =>
          cases h2
          exact absurd rfl hrc
      | ok =>
          have hsize := parseHeaderLine_size hp
          have hin : r.inHandler = s.r.inHandler := by
            obtain ⟨_, _, _, _, rfl, -, -⟩ := parseHeaderLine_frame hp
            rfl
          dsimp only at h2
          cases hget : cfg.headerGet r.mem r.headerName with
          | none =>
              rw [hget] at h2
              obtain ⟨h3, h4⟩ := ih (by show r.rb.size < n; omega) h2
              exact ⟨h3, h4.trans hin⟩
          | some v =>
              rw [hget] at h2
              obtain ⟨⟨err, s₁⟩, h3, h4⟩ := bind_ok h2
              obtain ⟨rfl, hcase⟩ := Processor.run_cases h3
              have hrb : s₁.r.rb = r.rb := Processor.run_rb (s := { s with r := r }) h3
              have hin₁ : s₁.r.inHandler = r.inHandler := by
                rcases hcase with ⟨_, _, _, _, -, rfl⟩ | ⟨_, _, _, -, rfl⟩ <;> rfl
              obtain ⟨h5, h6⟩ := ih (by rw [hrb]; omega) h4
              exact ⟨h5, h6.trans (hin₁.trans hin)⟩
      | _ => cases h2

/-- A handler that stops with `EVENTS_IN` on has emptied `rb`. -/
theorem InHandler.run_drained (h : s.r.inHandler.run cfg e s = .ok (rc, s')) (hrc : rc ≠ .ok)
    (hev : s'.c.evIn = true) : s'.r.rb.begin = s'.r.rb.end_ ∧ s'.r.inHandler ≠ .body := by
  cases hin : s.r.inHandler <;> rw [hin] at h
  case requestLine =>
      obtain ⟨⟨err, r⟩, hp, h2⟩ := bind_ok h
      dsimp only at h2
      split_ifs at h2 with hagain hok hversion
      · cases h2
        subst hagain
        rcases parseRequestLine_cases hp with ⟨-, r₁, hf, rfl, -⟩ | ⟨h0, -⟩ | ⟨h0, -⟩
        · obtain ⟨m, v, st, l, u, rfl⟩ := hf
          refine ⟨rfl, ?_⟩
          show s.r.inHandler ≠ .body
          rw [hin]
          simp
        · cases h0
        · exact absurd rfl h0
      · exact absurd (responseBuildErr_spec h2).1 hrc
      · exact absurd (responseBuildErr_spec h2).1 hrc
      · exact absurd (requestHandleUri_ok h2) hrc
  case headers =>
      obtain ⟨h1, h2⟩ := headersLoop_drained (Nat.lt_succ_self _) h hrc
      refine ⟨h1, ?_⟩
      rw [h2, hin]
      simp
  case body =>
      rw [requestHandleBody_evIn h] at hev
      cases hev

/-- The loop of `sy_handle_request` stops with `EVENTS_IN` on and `body_done` unset where `rb` is
empty. -/
theorem requestLoop_drained {n : ℕ} (hn : s.r.inHandler.rank < n)
    (h : requestLoop cfg e n s = (.ok rc, s')) (hev : s'.c.evIn = true)
    (hopen : s'.r.bodyDone = false) : s'.r.rb.begin = s'.r.rb.end_ ∧ s'.r.inHandler ≠ .body := by
  induction n generalizing s with
  | zero => omega
  | succ n ih =>
      unfold requestLoop at h
      dsimp only at h
      cases hrun : (s.note (.called s.r.inHandler s.r.state)).r.inHandler.run cfg e
          (s.note (.called s.r.inHandler s.r.state)) with
      | error f =>
          rw [hrun] at h
          cases h
      | ok p =>
          obtain ⟨err, s₁⟩ := p
          rw [hrun] at h
          dsimp only at h
          split_ifs at h with hgo
          · rw [hgo.1] at hrun
            have hrank : s₁.r.inHandler.rank < s.r.inHandler.rank :=
              InHandler.run_rank (s := s.note _) hrun hgo.2
            exact ih (by omega) h
          · cases h
            exact InHandler.run_drained hrun (fun hrc => hgo ⟨hrc, hopen⟩) hev

/-- A loop that begins with the body handler disables `EVENTS_IN`. -/
theorem requestLoop_body {n : ℕ} (hin : s.r.inHandler = .body)
    (h : requestLoop cfg e (n + 1) s = (.ok rc, s')) : s'.c.evIn = false := by
  unfold requestLoop at h
  dsimp only at h
  rw [hin] at h
  cases hrun : InHandler.run cfg e (s.note (.called .body s.r.state)) .body with
  | error f =>
      rw [show (s.note (.called .body s.r.state)).r.inHandler = .body from hin, hrun] at h
      cases h
  | ok p =>
      obtain ⟨err, s₁⟩ := p
      rw [show (s.note (.called .body s.r.state)).r.inHandler = .body from hin, hrun] at h
      dsimp only at h
      split_ifs at h with hgo
      · rw [hgo.1] at hrun
        have hrank := InHandler.run_rank (e := e) (s := s.note (.called .body s.r.state))
          (show (s.note (.called .body s.r.state)).r.inHandler.run cfg e _ = _ by
            rw [show (s.note (.called .body s.r.state)).r.inHandler = .body from hin, hrun]) hgo.2
        rw [show (s.note (.called .body s.r.state)).r.inHandler = .body from hin] at hrank
        exact absurd hrank (Nat.not_lt_zero _)
      · cases h
        exact requestHandleBody_evIn hrun

end handlers

/-! ### The invariant -/

/-- While `EVENTS_IN` is on, `rb` has room, or its bytes are parsed, or the request is complete. -/
def Drained (s : Session) : Prop :=
  s.c.evIn = true → s.r.rb.end_ < BUF_SIZE ∨ s.Late ∨
    s.r.rb.begin = s.r.rb.end_ ∧ s.r.inHandler ≠ .body

/-- Between two calls: `rb` is drained, and nothing is read behind an error page before the headers
have ended. -/
structure Unread (_ : Bool) (s : Session) : Prop where
  drained : Drained s
  page : s.r.inHandler = .headers → s.r.bodyDone = true → s.c.evIn = false

theorem unread_request {s s' : Session} {e : Env} {rc : Rc} (hb : Base true s) (h : Unread true s)
    (hrun : handleRequest cfg e s = (.ok rc, s')) : Unread false s' := by
  by_cases hl : s.Late
  · -- the request is complete and stays so
    have hlate : s'.Late := by
      obtain ⟨d, -, rfl | ⟨-, hm⟩⟩ := handleRequest_late hl (hb.late_pending hl) hrun
      · exact hl
      · cases hm with
        | aborted => exact hl
        | empty => exact hl
    refine ⟨fun _ => .inr (.inl hlate), fun hin => ?_⟩
    rw [hlate.2] at hin
    cases hin
  obtain ⟨rc', d, hrecv, -, -⟩ := Buffer.recv_spec e.recvs s.r.rb
  have hfull := Buffer.recv_not_full e.recvs s.r.rb
  unfold handleRequest at hrun
  rw [hrecv] at hrun hfull
  dsimp only at hrun hfull
  split_ifs at hrun with hrc
  · cases hrun
    exact ⟨fun _ => .inl (hfull hrc), h.page⟩
  change requestLoop cfg e 3 (s.receive d) = _ at hrun
  -- with `EVENTS_IN` on, the call has not set `body_done`, and it was not set before
  have hquiet : s'.c.evIn = true → s'.r.bodyDone = false := by
    intro hev
    obtain ⟨hin, hd⟩ := moves_evIn (requestLoop_moves (s := s.receive d) hl (.inr ⟨d, s.log, rfl⟩) hrun).1 hev
    apply Bool.eq_false_of_not_eq_true
    intro hd'
    have hdone : s.r.bodyDone = true := hd.symm.trans hd'
    cases hhandler : s.r.inHandler with
    | requestLine => exact hl ⟨hdone, hhandler⟩
    | headers => exact absurd ((h.page hhandler hdone).symm.trans hin) (by simp)
    | body => exact absurd ((requestLoop_body (s := s.receive d) hhandler hrun).symm.trans hev) (by simp)
  have hrank : (s.receive d).r.inHandler.rank < 3 := by
    cases (s.receive d).r.inHandler <;> decide
  refine ⟨fun hev => .inr (.inr (requestLoop_drained hrank hrun hev (hquiet hev))), fun _ hd => ?_⟩
  apply Bool.eq_false_of_not_eq_true
  intro hev
  exact absurd ((hquiet hev).symm.trans hd) (by simp)

theorem alive_unread : Alive cfg (fun _ _ => True) Relay Unread where
  share _ _ _ h := ⟨h.drained, h.page⟩
  poll _ _ _ _ _ h := ⟨h.drained, h.page⟩
  request _ _ _ _ hb _ h _ hrun := unread_request hb h hrun
  response p s s' e rc hb _ h _ hout hrun := by
    have hm := handleResponse_move hb.sb hrun
    cases hm with
    | sent hs hnot =>
        obtain ⟨sb, oh, done, fd, out, ds, fds, rfl, -⟩ := hs
        exact ⟨h.drained, h.page⟩
    | cleared hs hd hk => exact ⟨fun _ => .inl (by decide : 0 < BUF_SIZE), fun hin => by cases hin⟩
  upstream p s s' e rc hb _ h _ huc hrun := by
    cases handleUpstream_move hrun with
    | more => exact ⟨h.drained, h.page⟩
    | eof => exact ⟨h.drained, h.page⟩
    | failed => exact ⟨(fun hev => by cases hev), fun _ _ => rfl⟩
  pass p s s' e rc hb hr h _ huc hout hrun := by
    have hev := (hr.quiet huc hout).1
    cases handlePass_move hb.rb hrun with
    | done =>
        refine ⟨fun _ => .inl (by decide : 0 < BUF_SIZE), fun hin => ?_⟩
        exact absurd ((hr.tracked.head hin huc).2.2.1.symm.trans hout) (by simp)
    | part => exact ⟨fun hev' => absurd (hev.symm.trans hev') (by simp), h.page⟩
    | failed => exact ⟨(fun hev' => by cases hev'), fun _ _ => rfl⟩
  close _ _ _ h _ _ := ⟨h.drained, h.page⟩

theorem unread_init {v : View} (h : v.Init) : Unread v.pend v.s := by
  obtain ⟨r₀, c, hr⟩ := h.request
  refine ⟨fun _ => .inl ?_, fun hin => ?_⟩
  · rw [hr]
    show 0 < BUF_SIZE
    decide
  · rw [hr] at hin
    cases hin

/-! ### Calls with a full buffer -/

section full

variable {e : Env} {s : Session}

/-- A call for a complete request changes no events and does not answer `ERROR`. -/
theorem requestLoop_late {n : ℕ} (hin : s.r.inHandler = .requestLine)
    (hst : s.r.state.headerLine = true) :
    (requestLoop cfg e (n + 1) s).2.c = s.c ∧ (requestLoop cfg e (n + 1) s).1 ≠ .ok .error := by
  unfold requestLoop
  dsimp only
  rw [show (s.note (.called s.r.inHandler s.r.state)).r.inHandler = .requestLine from hin]
  cases hrun : InHandler.run cfg e (s.note (.called s.r.inHandler s.r.state)) .requestLine with
  | error f => exact ⟨rfl, by simp⟩
  | ok p =>
      obtain ⟨⟨err, r⟩, hp, h2⟩ := bind_ok hrun
      obtain ⟨rfl, rfl⟩ := parseRequestLine_wrong (r := s.r) hst hp
      cases h2
      exact ⟨rfl, by simp⟩

/-- Nor does a call that finds nothing to parse. -/
theorem requestLoop_empty {n : ℕ} (hsize : s.r.rb.size = 0) (hin : s.r.inHandler ≠ .body) :
    (requestLoop cfg e (n + 1) s).2.c = s.c ∧ (requestLoop cfg e (n + 1) s).1 ≠ .ok .error := by
  have hline : parseRequestLine s.r = .ok (.again, rbConsumed s.r) := by
    unfold parseRequestLine
    rw [hsize]
    rfl
  have hheader : parseHeaderLine s.r = .ok (.again, rbConsumed s.r) := by
    unfold parseHeaderLine
    rw [hsize]
    rfl
  have hrun : (s.note (.called s.r.inHandler s.r.state)).r.inHandler.run cfg e
      (s.note (.called s.r.inHandler s.r.state)) =
        .ok (.again, { s.note (.called s.r.inHandler s.r.state) with r := rbConsumed s.r }) := by
    cases hh : s.r.inHandler with
    | requestLine =>
        rw [show (s.note (.called .requestLine s.r.state)).r.inHandler = .requestLine from hh]
        show requestHandleRequestLine cfg e _ = _
        unfold requestHandleRequestLine
        rw [show (s.note (.called .requestLine s.r.state)).r = s.r from rfl, hline]
        rfl
    | headers =>
        rw [show (s.note (.called .headers s.r.state)).r.inHandler = .headers from hh]
        show headersLoop cfg e (_ + 1) _ = _
        unfold headersLoop
        rw [show (s.note (.called .headers s.r.state)).r = s.r from rfl, hheader]
        rfl
    | body => exact absurd hh hin
  unfold requestLoop
  dsimp only
  rw [hrun]
  exact ⟨rfl, by simp⟩

end full

/-! ### Runs of the worker -/

/-- **A call makes progress exactly when `rb` is not full**, in every state of a living worker, for
a connection that waits for bytes and has some. -/
theorem progress_iff {good : Server → Label → Prop} {v : Server} (h : Server.Reached cfg good v)
    (hlive : v.dead = none) {a : ConnAddr} (ha : v.Front a) (hev : (v.conns a).evIn = true)
    {e : Env} {d : List UInt8} {rest : List RecvResult} (he : e.recvs = .got d :: rest) (hd : d ≠ []) :
    Progresses cfg e (v.view a).s ↔ (v.reqs (v.conns a).r).rb.end_ < BUF_SIZE := by
  have hall : Server.Reached cfg (Server.Meets cfg fun _ _ => True) v := h.mono fun _ _ _ _ _ => trivial
  have hrelay := fun w hw (_ : w.dead = none) =>
    Server.Reached.sessions (v := w) (invariant_relay cfg) (fun _ => relay_init) hw
  have hunread := Server.Reached.alive alive_unread (fun _ => unread_init) hrelay hall hlive a ha
  have hb := h.sound.base a ha
  have hc : (v.view a).s.c = v.conns a := by
    show v.conns (v.reqs (v.conns a).r).c = v.conns a
    rw [(h.sound.wired.front a ha).2]
  rw [← hc] at hev
  show _ ↔ (v.view a).s.r.rb.end_ < BUF_SIZE
  generalize (v.view a).s = s at hunread hb hev
  constructor
  · intro hprogress
    by_contra hfull
    have hrecv : s.r.rb.recv e.recvs = (.again, s.r.rb, []) := by
      rw [he, Buffer.recv, if_pos]
      exact decide_eq_true (not_lt.mp hfull)
    have hcall : handleRequest cfg e s = requestLoop cfg e 3 ({ s with log := .received [] :: s.log }) := by
      unfold handleRequest
      rw [hrecv]
      rfl
    have hstuck : (handleRequest cfg e s).2.c = s.c ∧ (handleRequest cfg e s).1 ≠ .ok .error := by
      rw [hcall]
      rcases hunread.drained hev with hroom | hl | ⟨hempty, hin⟩
      · exact absurd hroom hfull
      · refine requestLoop_late (s := { s with log := .received [] :: s.log }) hl.2 ?_
        rcases hb.late hl with hst | ⟨-, hoff, -⟩
        · exact hst
        · exact absurd (hoff.symm.trans hev) (by simp)
      · apply requestLoop_empty (s := { s with log := .received [] :: s.log }) _ hin
        show s.r.rb.end_ - s.r.rb.begin = 0
        omega
    rcases hprogress with htaken | hoff | herror
    · rw [hrecv] at htaken
      exact htaken rfl
    · rw [hstuck.1, hev] at hoff
      cases hoff
    · exact hstuck.2 herror
  · intro hroom
    left
    have hmargin : 0 < s.r.rb.margin.toNat := by
      unfold Buffer.margin
      omega
    have htake : d.take s.r.rb.margin.toNat ≠ [] := by
      intro hnil
      rcases List.take_eq_nil_iff.mp hnil with h0 | h0
      · omega
      · exact hd h0
    rw [he, Buffer.recv, if_neg (by
      intro hf
      exact absurd (of_decide_eq_true hf) (not_le.mpr hroom))]
    dsimp only
    rw [if_neg htake]
    intro hnil
    exact htake (List.append_eq_nil_iff.mp hnil).1

/-- A byte that waits on the socket. -/
def waitingEnv : Env := { idleEnv with recvs := [.got [71]] }

theorem progress_iff_opened :
    ∃ v, exec (Server.step (serverConfig 60 [])) Server.boot Server.opened = some v ∧
      Progresses (serverConfig 60 []) waitingEnv (v.view 0).s := by
  have hrun : (exec (Server.step (serverConfig 60 [])) Server.boot Server.opened).any fun v =>
      decide (v.dead = none ∧ v.Front 0 ∧ (v.conns 0).evIn = true ∧
        (v.reqs (v.conns 0).r).rb.end_ < BUF_SIZE) := by
    decide +kernel
  obtain ⟨v, hv, hend⟩ := exists_of_any hrun
  obtain ⟨hlive, hfront, hev, hroom⟩ := of_decide_eq_true hend
  have hreach := Reach.exec (.start Server.boot_init) (along_true _ _) hv
  exact ⟨v, hv, (progress_iff hreach hlive hfront hev (e := waitingEnv) rfl (by simp)).mpr hroom⟩

/-- A request line and a header that goes on until `rb` is full. -/
def longHeader : List RecvResult :=
  .got (bytes "GET /i.html HTTP/1.1\r\n(") :: List.replicate 46 (.got (List.replicate 45 97))

def longHeaderRun : List Label :=
  Server.opened ++
  Server.single 0 0 true { idleEnv with recvs := longHeader, resource := fun _ => .file 9 0 }

set_option maxRecDepth 100000 in
/-- After 2048 bytes of headers a further call takes nothing and changes nothing. -/
theorem wedged_full :
    ¬ ∀ (cfg : Config) (v : Server), Server.Reached cfg (fun _ _ => True) v → v.dead = none →
      ∀ (a : ConnAddr) (e : Env) (d : List UInt8) (rest : List RecvResult), v.Front a →
        (v.conns a).evIn = true → e.recvs = .got d :: rest → d ≠ [] →
        Progresses cfg e (v.view a).s := by
  intro hall
  have hrun : (exec (Server.step (serverConfig 60 [⟨false, bytes "/"⟩])) Server.boot longHeaderRun).any
      fun v => decide (v.dead = none ∧ v.Front 0 ∧ (v.conns 0).evIn = true) &&
        decide (¬Progresses (serverConfig 60 [⟨false, bytes "/"⟩]) waitingEnv (v.view 0).s) := by
    decide +kernel
  obtain ⟨v, hv, hend⟩ := exists_of_any hrun
  obtain ⟨hstate, hstuck⟩ := Bool.and_eq_true_iff.mp hend
  obtain ⟨hlive, hfront, hev⟩ := of_decide_eq_true hstate
  have hreach := Reach.exec (.start Server.boot_init) (along_true _ _) hv
  exact of_decide_eq_true hstuck (hall _ v hreach hlive 0 waitingEnv [71] [] hfront hev rfl (by simp))

end SyServer
