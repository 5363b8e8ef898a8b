import SyServer.Sessions

/-! # Behind an error page

`Refused`: once an error page was built for a request, `keep_alive` stays false, the request is not
reset, and `sy_parse_request_line` does not answer `OK` for it again.  The page sets `body_done`, so
the handler of the request line runs only as for a complete request; `sy_handle_pass` may turn
`EVENTS_IN` on again, but then the parser is in a state of the header lines. -/

namespace SyServer

open Transition (Reach exec along_true exists_of_any)

variable {cfg : Config}

/-! ### What the log says -/

/-- An error page was built for the request. -/
def rejected : List Action → Bool
  | [] => false
  | .cleared _ :: _ => false
  | .page _ _ :: _ => true
  | _ :: l => rejected l

/-- The parser of the request line, called in this state, does not answer `OK`. -/
def LineRefused (st : PState) : Prop :=
  ∀ r r' : Request, r.state = st → parseRequestLine r ≠ .ok (.ok, r')

/-- Behind an error page the request is not reset, and no call of the parser of the request line
answers `OK`. -/
def NoReuse : List Action → Prop
  | [] => True
  | .cleared _ :: l => rejected l = false ∧ NoReuse l
  | .called .requestLine st :: l => (rejected l = true → LineRefused st) ∧ NoReuse l
  | _ :: l => NoReuse l

/-- In the states of the header lines nothing but an empty range is parsed. -/
theorem lineRefused_headerLine {st : PState} (h : st.headerLine = true) : LineRefused st := by
  rintro r r' rfl hp
  obtain ⟨hrc, -⟩ := parseRequestLine_wrong h hp
  cases hrc

theorem rejected_sent (ds : List Output) (l : List Action) :
    rejected (ds.map .delivered ++ l) = rejected l := by
  induction ds with
  | nil => rfl
  | cons d ds ih => exact ih

theorem noReuse_sent (ds : List Output) {l : List Action} (h : NoReuse l) :
    NoReuse (ds.map .delivered ++ l) := by
  induction ds with
  | nil => exact h
  | cons d ds ih => exact ih

theorem noReuse_called {h : InHandler} {st : PState} {l : List Action} (hl : NoReuse l)
    (hst : h = .requestLine → rejected l = true → LineRefused st) : NoReuse (.called h st :: l) := by
  cases h with
  | requestLine => exact ⟨hst rfl, hl⟩
  | headers => exact hl
  | body => exact hl

/-! ### The invariant -/

/-- Nothing was reused, and a rejected request is answered and not kept. -/
structure Refused (_ : Bool) (s : Session) : Prop where
  log : NoReuse s.log
  keep : rejected s.log = true → s.r.keepAlive = false
  done : rejected s.log = true → s.r.bodyDone = true

/-- A request that is not answered was not rejected. -/
theorem Refused.open {p : Bool} {s : Session} (h : Refused p s) (hopen : s.r.bodyDone = false) :
    rejected s.log = false := by
  apply Bool.eq_false_of_not_eq_true
  intro hr
  rw [h.done hr] at hopen
  cases hopen

theorem refused_uri {s s' : Session} (h : NoReuse s.log) (hopen : rejected s.log = false)
    (hm : UriMove s s') : Refused false s' := by
  have hno : ∀ P : Prop, rejected s.log = true → P := fun P hr => by
    rw [hopen] at hr
    cases hr
  cases hm with
  | notFound => exact ⟨h, fun _ => rfl, fun _ => rfl⟩
  | refused => exact ⟨h, fun _ => rfl, fun _ => rfl⟩
  | missing => exact ⟨h, fun _ => rfl, fun _ => rfl⟩
  | proxied => exact ⟨h, hno _, hno _⟩
  | found => exact ⟨h, hno _, hno _⟩

theorem refused_client {s s' : Session} (h : Refused false s) (hm : ClientMove cfg s s') :
    Refused false s' := by
  cases hm with
  | called hl =>
      refine ⟨noReuse_called h.log fun hin hr => absurd ⟨h.done hr, hin⟩ hl, h.keep, h.done⟩
  | lineMore hopen hin hp =>
      obtain ⟨_, _, _, _, _, _, rfl, -⟩ := parseRequestLine_frame hp
      exact ⟨h.log, h.keep, h.done⟩
  | lineError => exact ⟨h.log, fun _ => rfl, fun _ => rfl⟩
  | @lineOk r s' k hopen hin hp huri =>
      exact refused_uri (s := { s with r := { r with keepAlive := k, inHandler := .headers } }) h.log
        (h.open hopen) huri
  | headersMore hin hp =>
      obtain ⟨_, _, _, _, rfl, -, -⟩ := parseHeaderLine_frame hp
      exact ⟨h.log, h.keep, h.done⟩
  | header hin hp =>
      obtain ⟨_, _, _, _, rfl, -, -⟩ := parseHeaderLine_frame hp
      exact ⟨h.log, h.keep, h.done⟩
  | headerSet hs k te n hin hp hget hk =>
      obtain ⟨_, _, _, _, rfl, -, -⟩ := parseHeaderLine_frame hp
      refine ⟨h.log, fun hr => Bool.eq_false_of_not_eq_true fun hk' => ?_, h.done⟩
      have := hk hk'
      rw [show s.r.keepAlive = false from h.keep hr] at this
      cases this
  | headerError => exact ⟨h.log, fun _ => rfl, fun _ => rfl⟩
  | headersEnd hin hp =>
      obtain ⟨_, _, _, _, rfl, -, -⟩ := parseHeaderLine_frame hp
      exact ⟨h.log, h.keep, h.done⟩
  | bodyMore => exact ⟨h.log, h.keep, h.done⟩
  | bodyRelayed => exact ⟨h.log, h.keep, fun _ => rfl⟩
  | bodyLocal => exact ⟨h.log, h.keep, fun _ => rfl⟩

theorem refused_response {p : Bool} {s s' : Session} (h : Refused p s) (hm : ResponseMove s s') :
    Refused p s' := by
  cases hm with
  | sent hs hnot =>
      obtain ⟨sb, oh, done, fd, out, ds, fds, rfl, -⟩ := hs
      have hr := rejected_sent ds s.log
      exact ⟨noReuse_sent ds h.log, fun h1 => h.keep (hr ▸ h1), fun h1 => h.done (hr ▸ h1)⟩
  | cleared hs hd hk =>
      obtain ⟨sb, oh, done, fd, out, ds, fds, rfl, -⟩ := hs
      refine ⟨⟨?_, noReuse_sent ds h.log⟩, (fun h1 => by cases h1), fun h1 => by cases h1⟩
      -- a kept connection was not rejected
      apply Bool.eq_false_of_not_eq_true
      intro hr
      have hkeep := h.keep ((rejected_sent ds s.log).symm.trans hr)
      exact absurd (hkeep.symm.trans hk) (by simp)

theorem invariant_refused : Invariant cfg (fun _ _ => True) Refused (Refused false) where
  share _ _ _ h := ⟨h.log, h.keep, h.done⟩
  poll _ _ _ _ _ h := ⟨h.log, h.keep, h.done⟩
  receive s d _ h := ⟨h.log, h.keep, h.done⟩
  call _ _ _ _ _ _ _ _ h := h
  client _ _ _ h hm := refused_client h hm
  late s s' e d hb hl _ _ _ h hm := by
    -- the parser is in a state of the header lines
    have hst := lineRefused_headerLine (hb.late_pending hl)
    cases hm with
    | aborted => exact ⟨noReuse_called h.log fun _ _ => hst, h.keep, h.done⟩
    | empty => exact ⟨noReuse_called h.log fun _ _ => hst, h.keep, h.done⟩
  return_ _ _ h := h
  pass p s s' e _ _ _ _ h hm := by
    cases hm with
    | done => exact ⟨h.log, h.keep, h.done⟩
    | part => exact ⟨h.log, h.keep, h.done⟩
    | failed => exact ⟨h.log, fun _ => rfl, fun _ => rfl⟩
  upstream p s s' e _ _ _ h hm := by
    cases hm with
    | more => exact ⟨h.log, h.keep, h.done⟩
    | eof => exact ⟨h.log, h.keep, h.done⟩
    | failed => exact ⟨h.log, fun _ => rfl, fun _ => rfl⟩
  response _ _ _ _ _ h hm := refused_response h hm
  close _ _ _ _ h := ⟨h.log, h.keep, h.done⟩

theorem refused_init {v : View} (h : v.Init) : Refused v.pend v.s := by
  refine ⟨?_, ?_, ?_⟩
  · rw [h.log]
    trivial
  · intro hr
    rw [h.log] at hr
    cases hr
  · intro hr
    rw [h.log] at hr
    cases hr

/-! ### Runs of the worker -/

/-- **Nothing is reused behind an error page**: in every run, a request that an error page was
built for is not kept, is not reset, and has no further request line. -/
theorem no_reuse {good : Server → Label → Prop} {v : Server} (h : Server.Reached cfg good v)
    {a : ConnAddr} (ha : v.Front a) :
    NoReuse (v.log (v.conns a).r) ∧
      (rejected (v.log (v.conns a).r) = true → (v.reqs (v.conns a).r).keepAlive = false) := by
  have hall : Server.Reached cfg (Server.Meets cfg fun _ _ => True) v := h.mono fun _ _ _ _ _ => trivial
  have hrefused := Server.Reached.sessions invariant_refused (fun _ => refused_init) hall a ha
  exact ⟨hrefused.log, hrefused.keep⟩

/-- A request is forwarded, and the upstream fails; then the client sends more. -/
def rejectedRun : List Label :=
  Server.opened ++
  Server.single 0 0 true { idleEnv with recvs := [.got (bytes "GET /p HTTP/1.1\r\n\r\n")] } ++
  Server.single 0 1 false { idleEnv with sends := [.sent 19] } ++
  [.poll [.conn 0 true false, .conn 1 true false],
    .serveIn (.at 0) { idleEnv with recvs := [.eagain] }, .serveOut (.at 0) idleEnv,
    .serveIn (.at 0) { idleEnv with recvs := [.err] }]

theorem no_reuse_failed :
    ∃ v, exec (Server.step (serverConfig 60 [⟨true, bytes "/p"⟩])) Server.boot rejectedRun = some v ∧
      rejected (v.log (v.conns 0).r) = true ∧ (v.reqs (v.conns 0).r).keepAlive = false ∧
      NoReuse (v.log (v.conns 0).r) := by
  have hrun : (exec (Server.step (serverConfig 60 [⟨true, bytes "/p"⟩])) Server.boot rejectedRun).any
      (fun v => decide (v.Front 0 ∧ rejected (v.log (v.conns 0).r) = true)) := by
    decide +kernel
  obtain ⟨v, hv, hend⟩ := exists_of_any hrun
  obtain ⟨hfront, hr⟩ := of_decide_eq_true hend
  have hreach := Reach.exec (.start Server.boot_init) (along_true _ _) hv
  obtain ⟨hlog, hkeep⟩ := no_reuse hreach hfront
  exact ⟨v, hv, hr, hkeep hr, hlog⟩

end SyServer
