import SyServer.Moves

/-! # One session under the event loop

What the event loop of `main` does to one session, as a transition system.  Between two calls of
its own handlers anything can happen to the shared data, so every call gets them anew.

`pend` says that the batch of `epoll_wait` being served still holds an `EPOLLIN` of the front
connection.  The batch was made when `EVENTS_IN` was on; a handler of the upstream connection may
have turned it off since, and `sy_handle_request` runs all the same.  `EPOLLOUT` of a connection
is still on when it is served, since only its own handler turns it off.

* `Base`: the invariant every other one rests on; it holds in every state reached.
* `Invariant`: what has to be shown of each kind of move for an invariant to be kept, and
  `Invariant.step`, which says it then is. -/

namespace SyServer

open Relation (ReflTransGen)
open Transition (kept_of_moves)

/-- A session, and whether an `EPOLLIN` of its front connection is still to be served. -/
structure View where
  pend : Bool
  s : Session

/-- What can happen to a session.  `poll b` makes a new batch, or drops an event unserved;
`share g` is another session's use of the shared data. -/
inductive SessionEvent where
  | poll (b : Bool)
  | share (g : Shared)
  | request (e : Env)
  | response (e : Env)
  | upstream (e : Env)
  | pass (e : Env)
  | close

/-- The shared data as another session leaves them. -/
def Session.share (s : Session) (g : Shared) : Session := { s with g := g }

/-- The upstream connection is closed by a sweep. -/
def Session.dropUpstream (s : Session) : Session :=
  { s with r := { s.r with uc := none }, u := .unset }

/-- One step of a session, if it is enabled; a call may also end in a failed assertion. -/
def View.step (cfg : Config) (v : View) : SessionEvent → Option View
  | .poll b => if b = true → v.s.c.evIn = true then some ⟨b, v.s⟩ else none
  | .share g => some ⟨v.pend, v.s.share g⟩
  | .request e => if v.pend = true then some ⟨false, (handleRequest cfg e v.s).2⟩ else none
  | .response e =>
      if v.s.c.evOut = true then some ⟨v.pend, (settle v.s (handleResponse e v.s)).2⟩ else none
  | .upstream e =>
      if v.s.r.uc ≠ none then some ⟨v.pend, (settle v.s (handleUpstream e v.s)).2⟩ else none
  | .pass e =>
      if v.s.r.uc ≠ none ∧ v.s.u.evOut = true then
        some ⟨v.pend, (settle v.s (handlePass e v.s)).2⟩
      else none
  | .close => if v.pend = false ∧ v.s.r.uc ≠ none then some ⟨false, v.s.dropUpstream⟩ else none

/-- A session as `sy_open_connection` leaves it. -/
structure View.Init (v : View) : Prop where
  pend : v.pend = false
  request : ∃ r₀ c, v.s.r = requestInit r₀ c
  evOut : v.s.c.evOut = false
  back : v.s.u = .unset
  log : v.s.log = []

/-! ### The base invariant -/

/-- What holds in every state reached. -/
structure Base (p : Bool) (s : Session) : Prop where
  rb : s.r.rb.begin ≤ s.r.rb.end_
  sb : s.r.sb.begin ≤ s.r.sb.end_
  fresh : s.r.inHandler = .requestLine → s.r.bodyDone = false →
    LineReady s.r ∧ s.r.uc = none ∧ s.c.evOut = false ∧ s.r.responseDone = false
  late : s.Late → s.r.state.headerLine = true ∨ s.r.uc = none ∧ s.c.evIn = false ∧ p = false
  headers : s.r.inHandler ≠ .requestLine → HeaderReady s.r
  done : s.r.responseDone = true → s.r.keepAlive = false

/-- The handler of the request line cannot run behind the request: either the parser is in the
states of the header lines, or no event is left. -/
theorem Base.late_pending {s : Session} (h : Base true s) (hl : s.Late) :
    s.r.state.headerLine = true := by
  rcases h.late hl with h | ⟨-, -, h⟩
  · exact h
  · cases h

/-- While there is an upstream connection, the request line is behind the request. -/
theorem Base.late_upstream {p : Bool} {s : Session} (h : Base p s) (hin : s.r.inHandler = .requestLine)
    (huc : s.r.uc ≠ none) : s.r.bodyDone = true ∧ s.r.state.headerLine = true := by
  have hd : s.r.bodyDone = true := by
    by_contra hd
    exact huc (h.fresh hin (Bool.eq_false_of_not_eq_true hd)).2.1
  rcases h.late ⟨hd, hin⟩ with h | ⟨h, -⟩
  · exact ⟨hd, h⟩
  · exact absurd h huc

theorem lineReady_init (r : Request) (c : ConnAddr) : LineReady (requestInit r c) :=
  .of_state rfl (by simp [requestInit]) (by simp [requestInit])

theorem base_init {v : View} (h : v.Init) : Base v.pend v.s := by
  obtain ⟨r₀, c, hr⟩ := h.request
  refine ⟨?_, ?_, fun _ _ => ⟨?_, ?_, h.evOut, ?_⟩, fun hl => ?_, fun hin => ?_, fun hd => ?_⟩
  · rw [hr]; exact le_rfl
  · rw [hr]; exact le_rfl
  · rw [hr]; exact lineReady_init r₀ c
  · rw [hr]; rfl
  · rw [hr]; rfl
  · have := hl.1; rw [hr] at this; cases this
  · rw [hr] at hin; exact absurd rfl hin
  · rw [hr] at hd; cases hd

theorem base_share {p : Bool} {s : Session} (h : Base p s) (g : Shared) : Base p (s.share g) :=
  ⟨h.rb, h.sb, h.fresh, h.late, h.headers, h.done⟩

theorem base_poll {p b : Bool} {s : Session} (h : Base p s) (hb : b = true → s.c.evIn = true) :
    Base b s where
  rb := h.rb
  sb := h.sb
  fresh := h.fresh
  headers := h.headers
  done := h.done
  late hl := by
    rcases h.late hl with h1 | ⟨h1, h2, -⟩
    · exact .inl h1
    · refine .inr ⟨h1, h2, Bool.eq_false_of_not_eq_true fun hb' => ?_⟩
      rw [hb hb'] at h2
      cases h2

/-- The base while the request line is not expected. -/
theorem Base.of_inside {p : Bool} {s : Session} (hin : s.r.inHandler ≠ .requestLine)
    (hrb : s.r.rb.begin ≤ s.r.rb.end_) (hsb : s.r.sb.begin ≤ s.r.sb.end_)
    (hheaders : HeaderReady s.r) (hdone : s.r.responseDone = true → s.r.keepAlive = false) :
    Base p s :=
  ⟨hrb, hsb, fun h => absurd h hin, fun h => absurd h.2 hin, fun _ => hheaders, hdone⟩

/-- The base after an error response. -/
theorem base_errored {p : Bool} {s : Session} {status : ℕ} {b : Buffer} (hb : Grows s.r.sb b)
    (hrb : s.r.rb.begin ≤ s.r.rb.end_) (hsb : s.r.sb.begin ≤ s.r.sb.end_)
    (hheaders : s.r.inHandler ≠ .requestLine → HeaderReady s.r)
    (hlate : s.r.inHandler = .requestLine →
      s.r.state.headerLine = true ∨ s.r.uc = none ∧ p = false) : Base p (s.errored status b) where
  rb := hrb
  sb := by
    show b.begin ≤ b.end_
    rw [hb.begin]
    exact hsb.trans hb.le
  fresh _ hd := by cases hd
  late hl := (hlate hl.2).imp_right fun h => ⟨h.1, rfl, h.2⟩
  headers := hheaders
  done _ := rfl

theorem base_uri {s s' : Session} (h : Base false s) (hin : s.r.inHandler = .headers)
    (hm : UriMove s s') : Base false s' := by
  have hnot : s.r.inHandler ≠ .requestLine := by rw [hin]; simp
  cases hm with
  | notFound host port hb =>
      exact base_errored hb h.rb h.sb h.headers fun hl => absurd hl hnot
  | refused host port hg hb =>
      exact base_errored hb h.rb h.sb h.headers fun hl => absurd hl hnot
  | missing host port i status hb =>
      exact base_errored hb h.rb h.sb h.headers fun hl => absurd hl hnot
  | proxied host port fd hg => exact .of_inside hnot h.rb h.sb (h.headers hnot) h.done
  | found host port i uri fd size => exact .of_inside hnot h.rb h.sb (h.headers hnot) h.done

/-- The session after a call of the header parser. -/
theorem base_header {s : Session} {rc : Rc} {r : Request} (h : Base false s)
    (hin : s.r.inHandler = .headers) (hp : parseHeaderLine s.r = .ok (rc, r)) :
    Base false { s with r := r } ∧ r.inHandler = .headers := by
  obtain ⟨rc', r', hp', hready⟩ := parseHeaderLine_ready (h.headers (by rw [hin]; simp))
  rw [hp] at hp'
  cases hp'
  obtain ⟨n, v, st, b, rfl, hend, hbegin⟩ := parseHeaderLine_frame hp
  refine ⟨.of_inside ?_ ?_ h.sb hready h.done, hin⟩
  · show s.r.inHandler ≠ .requestLine
    rw [hin]
    simp
  · show b.begin ≤ b.end_
    rw [hend]
    exact hbegin h.rb

theorem base_client {cfg : Config} {s s' : Session} (h : Base false s) (hm : ClientMove cfg s s') :
    Base false s' := by
  cases hm with
  | called hl => exact ⟨h.rb, h.sb, h.fresh, h.late, h.headers, h.done⟩
  | @lineMore r hopen hin hp =>
      obtain ⟨rc, r', hp', hready⟩ := parseRequestLine_ready (h.fresh hin hopen).1
      rw [hp] at hp'
      cases hp'
      have hr := hready rfl
      obtain ⟨m, v, st, l, u, k, rfl, hk⟩ := parseRequestLine_frame hp
      refine ⟨hk h.rb, h.sb, fun h1 h2 => ⟨hr, (h.fresh h1 h2).2⟩, fun hl => ?_, fun hi => ?_, h.done⟩
      · exact absurd (hopen.symm.trans hl.1) (by simp)
      · exact absurd hin hi
  | lineError status hopen hin hp hrc hb =>
      obtain ⟨m, v, st, l, u, k, rfl, hk⟩ := parseRequestLine_frame hp
      refine base_errored hb (hk h.rb) h.sb (fun hi => ?_) fun _ => .inr ⟨(h.fresh hin hopen).2.1, rfl⟩
      exact absurd hin hi
  | lineOk k hopen hin hp huri =>
      refine base_uri ?_ rfl huri
      have hdone := (h.fresh hin hopen).2.2.2
      have hst := (parseRequestLine_done hp).1
      obtain ⟨m, v, st, l, u, k, rfl, hk⟩ := parseRequestLine_frame hp
      refine .of_inside (by simp) (hk h.rb) h.sb ?_ fun hd => ?_
      · exact (congrArg PState.headerLine hst).trans rfl
      · exact absurd (hdone.symm.trans hd) (by simp)
  | headersMore hin hp => exact (base_header h hin hp).1
  | header hin hp => exact (base_header h hin hp).1
  | @headerSet r v hs k te n hin hp hget hk =>
      obtain ⟨hb, hin'⟩ := base_header h hin hp
      have hnot : r.inHandler ≠ .requestLine := by rw [hin']; simp
      refine .of_inside hnot hb.rb hb.sb (hb.headers hnot) fun hd => ?_
      · have hr : r.keepAlive = false := hb.done hd
        show k = false
        refine Bool.eq_false_of_not_eq_true fun h1 => ?_
        rw [hk h1] at hr
        cases hr
  | headerError hs status hin hp hget hb =>
      obtain ⟨h', hin'⟩ := base_header h hin hp
      refine base_errored hb h'.rb h'.sb h'.headers fun hl => ?_
      exact absurd (hin'.symm.trans hl) (by simp)
  | headersEnd hin hp =>
      obtain ⟨h', hin'⟩ := base_header h hin hp
      exact .of_inside (by simp) h'.rb h'.sb (h'.headers (by simp [hin'])) h'.done
  | bodyMore n hin hlen huc =>
      have hnot : s.r.inHandler ≠ .requestLine := by rw [hin]; simp
      exact .of_inside hnot (Nat.zero_le _) h.sb (h.headers hnot) h.done
  | bodyRelayed n hin huc =>
      refine ⟨Nat.zero_le _, h.sb, (fun _ hd => by cases hd), fun _ => .inl ?_,
        fun hi => absurd rfl hi, h.done⟩
      exact h.headers (by rw [hin]; simp)
  | bodyLocal n fd hin huc hb =>
      refine ⟨le_rfl, ?_, (fun _ hd => by cases hd), fun hl => .inr ⟨huc, rfl, rfl⟩,
        fun hi => absurd rfl hi, h.done⟩
      show _ ≤ _
      rw [hb.begin]
      exact h.sb.trans hb.le

theorem base_receive {s : Session} (h : Base true s) (d : List UInt8) : Base false (s.receive d) where
  rb := h.rb.trans (Nat.le_add_right _ _)
  sb := h.sb
  fresh h1 h2 :=
    have hf := h.fresh h1 h2
    ⟨⟨hf.1.state, hf.1.method, hf.1.uri⟩, hf.2⟩
  late hl := .inl (h.late_pending hl)
  headers := h.headers
  done := h.done

theorem base_late {s s' : Session} (h : Base false s) (hm : LateMove s s') : Base false s' := by
  cases hm with
  | aborted => exact ⟨h.rb, h.sb, h.fresh, h.late, h.headers, h.done⟩
  | empty =>
      refine ⟨le_rfl, h.sb, fun h1 h2 => ?_, h.late, h.headers, h.done⟩
      have hf := h.fresh h1 h2
      exact ⟨⟨hf.1.state, hf.1.method, hf.1.uri⟩, hf.2⟩

theorem base_pass {e : Env} {p : Bool} {s s' : Session} (h : Base p s) (huc : s.r.uc ≠ none)
    (hm : PassMove e s s') : Base p s' := by
  cases hm with
  | done hsend =>
      refine ⟨le_rfl, h.sb, fun h1 h2 => absurd (h.fresh h1 h2).2.1 huc, fun hl => ?_, h.headers, h.done⟩
      exact .inl (h.late_upstream hl.2 huc).2
  | part hn =>
      refine ⟨hn.le, h.sb, fun h1 h2 => absurd (h.fresh h1 h2).2.1 huc, h.late, h.headers, h.done⟩
  | failed hn hsend hb =>
      exact base_errored hb hn.le h.sb h.headers fun hin => .inl (h.late_upstream hin huc).2

theorem base_upstream {e : Env} {p : Bool} {s s' : Session} (h : Base p s) (huc : s.r.uc ≠ none)
    (hm : UpstreamMove e s s') : Base p s' := by
  have hsb : ∀ d, (s.r.sb.put d).begin ≤ (s.r.sb.put d).end_ := fun d =>
    h.sb.trans (Nat.le_add_right _ _)
  cases hm with
  | more hrecv =>
      exact ⟨h.rb, hsb _, fun h1 h2 => absurd (h.fresh h1 h2).2.1 huc, h.late, h.headers, h.done⟩
  | eof hrecv =>
      exact ⟨h.rb, hsb _, fun h1 h2 => absurd (h.fresh h1 h2).2.1 huc, h.late, h.headers, h.done⟩
  | failed hrecv hb =>
      exact base_errored hb h.rb (hsb _) h.headers fun hin => .inl (h.late_upstream hin huc).2

/-- A kept connection is reset without an upstream. -/
theorem Base.cleared {p : Bool} {s s' : Session} (h : Base p s) (hs : Sent s s')
    (hd : s'.r.responseDone = true) (hk : s'.r.keepAlive = true) :
    s.r.uc = none ∧ s.r.responseDone = false := by
  obtain ⟨sb, oh, done, fd, out, ds, fds, rfl, -, -, hnew, -, -⟩ := hs
  have hold : s.r.responseDone = false := Bool.eq_false_of_not_eq_true fun hd' => by
    have := (h.done hd').symm.trans hk
    cases this
  rcases hnew hd with h1 | h1
  · rw [hold] at h1; cases h1
  · exact ⟨h1, hold⟩

theorem base_response {p : Bool} {s s' : Session} (h : Base p s) (hout : s.c.evOut = true)
    (hm : ResponseMove s s') : Base p s' := by
  cases hm with
  | sent hs hnot =>
      obtain ⟨sb, oh, done, fd, out, ds, fds, rfl, hsb, -, -, -, -⟩ := hs
      refine ⟨h.rb, hsb, fun h1 h2 => ?_, h.late, h.headers, fun hd => ?_⟩
      · exact absurd (hout.symm.trans (h.fresh h1 h2).2.2.1) (by simp)
      · exact Bool.eq_false_of_not_eq_true fun hk => hnot ⟨hd, hk⟩
  | cleared hs hd hk =>
      have huc := (h.cleared hs hd hk).1
      obtain ⟨sb, oh, done, fd, out, ds, fds, rfl, -, -, -, -, -⟩ := hs
      refine ⟨le_rfl, le_rfl, fun _ _ => ⟨?_, huc, rfl, rfl⟩, fun hl => ?_, fun hi => absurd rfl hi,
        fun hd => by cases hd⟩
      · exact .of_state rfl (by simp [Session.clear, Session.note, requestClear, requestInit])
          (by simp [Session.clear, Session.note, requestClear, requestInit])
      · exact absurd hl.1 (by simp [Session.clear, Session.note, requestClear, requestInit])

theorem base_close {s : Session} (h : Base false s) : Base false s.dropUpstream where
  rb := h.rb
  sb := h.sb
  fresh h1 h2 :=
    have hf := h.fresh h1 h2
    ⟨⟨hf.1.state, hf.1.method, hf.1.uri⟩, rfl, hf.2.2⟩
  late hl := (h.late hl).imp_right fun h => ⟨rfl, h.2⟩
  headers := h.headers
  done := h.done

/-! ### Invariants of a session -/

variable {cfg : Config} {good : View → SessionEvent → Prop} {I : Bool → Session → Prop}
  {J : Session → Prop}

/-- What each kind of move has to keep, next to the base, in runs whose steps are `good`.  `J` is
what holds of the session during a call of `sy_handle_request`. -/
structure Invariant (cfg : Config) (good : View → SessionEvent → Prop) (I : Bool → Session → Prop)
    (J : Session → Prop) : Prop where
  share : ∀ p s g, I p s → I p (s.share g)
  poll : ∀ p b s, Base p s → (b = true → s.c.evIn = true) → I p s → I b s
  receive : ∀ s d, Base true s → I true s → I false (s.receive d)
  call : ∀ s e d, Base true s → good ⟨true, s⟩ (.request e) → (s.r.rb.recv e.recvs).1 = .again →
    d = (s.r.rb.recv e.recvs).2.2 → I true s → I false (s.receive d) → J (s.receive d)
  client : ∀ s s', Base false s → J s → ClientMove cfg s s' → J s'
  late : ∀ s s' e d, Base true s → s.Late → good ⟨true, s⟩ (.request e) →
    (s.r.rb.recv e.recvs).1 = .again → I true s → J (s.receive d) → LateMove (s.receive d) s' → J s'
  return_ : ∀ s, Base false s → J s → I false s
  pass : ∀ p s s' e, Base p s → s.r.uc ≠ none → s.u.evOut = true → good ⟨p, s⟩ (.pass e) →
    I p s → PassMove e s s' → I p s'
  upstream : ∀ p s s' e, Base p s → s.r.uc ≠ none → good ⟨p, s⟩ (.upstream e) →
    I p s → UpstreamMove e s s' → I p s'
  response : ∀ p s s', Base p s → s.c.evOut = true → I p s → ResponseMove s s' → I p s'
  close : ∀ s, Base false s → s.r.uc ≠ none → good ⟨false, s⟩ .close → I false s →
    I false s.dropUpstream

/-- The outcome of a settled call: what the call left, or nothing changed. -/
theorem settle_cases (s : Session) (x : Except Fault (Rc × Session)) :
    (settle s x).2 = s ∨ ∃ rc, x = .ok (rc, (settle s x).2) := by
  cases x with
  | error f => exact .inl rfl
  | ok p => exact .inr ⟨p.1, rfl⟩

/-- **One step keeps the base and the invariant.** -/
theorem Invariant.step (hI : Invariant cfg good I J) {v v' : View} {ev : SessionEvent}
    (hb : Base v.pend v.s) (hi : I v.pend v.s) (hgood : good v ev) (h : v.step cfg ev = some v') :
    Base v'.pend v'.s ∧ I v'.pend v'.s := by
  obtain ⟨p, s⟩ := v
  cases ev with
  | poll b =>
      obtain ⟨hin, h⟩ := Option.ite_none_right_eq_some.mp h
      cases h
      exact ⟨base_poll hb hin, hI.poll _ _ _ hb hin hi⟩
  | share g =>
      cases h
      exact ⟨base_share hb g, hI.share _ _ g hi⟩
  | request e =>
      obtain ⟨rfl, h⟩ := Option.ite_none_right_eq_some.mp h
      cases h
      have hrun : handleRequest cfg e s = ((handleRequest cfg e s).1, (handleRequest cfg e s).2) := rfl
      have hret : ∀ t, Base false t → J t → Base false t ∧ I false t :=
        fun t h1 h2 => ⟨h1, hI.return_ t h1 h2⟩
      by_cases hrc : (s.r.rb.recv e.recvs).1 = .again
      swap
      · dsimp only
        rw [handleRequest_unread hrc]
        exact ⟨base_receive hb _, hI.receive _ _ hb hi⟩
      have hcall : ∀ d, d = (s.r.rb.recv e.recvs).2.2 → J (s.receive d) := fun d hd =>
        hI.call _ e d hb hgood hrc hd hi (hI.receive _ _ hb hi)
      by_cases hl : s.Late
      · obtain ⟨d, hd, h | ⟨-, hm⟩⟩ := handleRequest_late hl (hb.late_pending hl) hrun
        · dsimp only
          rw [h]
          exact ⟨base_receive hb d, hI.receive _ _ hb hi⟩
        · exact hret _ (base_late (base_receive hb d) hm)
            (hI.late _ _ e d hb hl hgood hrc hi (hcall d hd) hm)
      · obtain ⟨d, hd, hmoves, -⟩ := handleRequest_moves (fun _ => hl) hrun
        have hkept := kept_of_moves (fun s => Base false s ∧ J s)
          (fun t t' ht hm => ⟨base_client ht.1 hm, hI.client t t' ht.1 ht.2 hm⟩)
          ⟨base_receive hb d, hcall d hd⟩ hmoves
        exact hret _ hkept.1 hkept.2
  | response e =>
      obtain ⟨hout, h⟩ := Option.ite_none_right_eq_some.mp h
      cases h
      dsimp only at hb hi hout ⊢
      rcases settle_cases s (handleResponse e s) with h | ⟨rc, h⟩
      · rw [h]
        exact ⟨hb, hi⟩
      · have hm := handleResponse_move hb.sb h
        exact ⟨base_response hb hout hm, hI.response _ _ _ hb hout hi hm⟩
  | upstream e =>
      obtain ⟨huc, h⟩ := Option.ite_none_right_eq_some.mp h
      cases h
      dsimp only at hb hi huc ⊢
      rcases settle_cases s (handleUpstream e s) with h | ⟨rc, h⟩
      · rw [h]
        exact ⟨hb, hi⟩
      · have hm := handleUpstream_move h
        exact ⟨base_upstream hb huc hm, hI.upstream _ _ _ _ hb huc hgood hi hm⟩
  | pass e =>
      obtain ⟨⟨huc, hout⟩, h⟩ := Option.ite_none_right_eq_some.mp h
      cases h
      dsimp only at hb hi huc hout ⊢
      rcases settle_cases s (handlePass e s) with h | ⟨rc, h⟩
      · rw [h]
        exact ⟨hb, hi⟩
      · have hm := handlePass_move hb.rb h
        exact ⟨base_pass hb huc hm, hI.pass _ _ _ _ hb huc hout hgood hi hm⟩
  | close =>
      obtain ⟨⟨rfl, huc⟩, h⟩ := Option.ite_none_right_eq_some.mp h
      cases h
      exact ⟨base_close hb, hI.close _ hb huc hgood hi⟩

end SyServer
