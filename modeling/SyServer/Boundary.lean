import SyServer.Relay

/-! # Kept connections are reset behind complete requests

`Boundary`: `sy_request_clear` was called with `body_done` set only, behind the end of the headers
of its request.  A request that is being answered before it is complete has its upstream, so
`sy_send_response_buffer` does not take the response for complete; but a sweep sets `r->uc` to
`NULL` when the upstream has closed.  With such a sweep excluded `Boundary` is an invariant of
every run. -/

namespace SyServer

open Transition (Reach exec along_true exists_of_any)

variable {cfg : Config}

/-! ### The invariant -/

/-- Every reset in the log was behind a complete request: `body_done` was set, and the end of the
headers had been seen. -/
def CompleteResets : List Action → Prop
  | [] => True
  | .cleared b :: l => (b = true ∧ headersEnd l ≠ none) ∧ CompleteResets l
  | _ :: l => CompleteResets l

/-- Every reset so far was behind a complete request, and a request that is being answered early
has its upstream. -/
structure Boundary (_ : Bool) (s : Session) : Prop where
  resets : CompleteResets s.log
  answered : s.r.bodyDone = false → s.r.keepAlive = true → s.c.evOut = true → s.r.uc ≠ none
  body : s.r.inHandler = .body → headersEnd s.log ≠ none
  complete : s.r.bodyDone = true → s.r.keepAlive = true → headersEnd s.log ≠ none

/-- No sweep closes the upstream of a kept request that is incomplete and being answered. -/
def NoEarlyClose (v : View) : SessionEvent → Prop
  | .close => ¬ (v.s.r.bodyDone = false ∧ v.s.r.keepAlive = true ∧ v.s.c.evOut = true)
  | _ => True

instance (v : View) : ∀ ev, Decidable (NoEarlyClose v ev)
  | .close => inferInstanceAs (Decidable (¬ _))
  | .poll _ | .share _ | .request _ | .response _ | .pass _ | .upstream _ => .isTrue trivial

theorem boundary_uri {s s' : Session} (h : CompleteResets s.log) (hin : s.r.inHandler = .headers)
    (hopen : s.r.bodyDone = false) (hout : s.c.evOut = false) (hm : UriMove s s') :
    Boundary false s' := by
  have hoff : s.c.evOut = true → False := fun ho => absurd (hout.symm.trans ho) (by simp)
  have hnot : s.r.inHandler ≠ .body := by rw [hin]; simp
  have hnotDone : s.r.bodyDone ≠ true := by rw [hopen]; simp
  cases hm with
  | proxied => exact ⟨h, (fun _ _ _ => by simp), fun hb => absurd hb hnot, fun hd => absurd hd hnotDone⟩
  | found =>
      exact ⟨h, fun _ _ ho => (hoff ho).elim, fun hb => absurd hb hnot, fun hd => absurd hd hnotDone⟩
  | notFound =>
      exact ⟨h, (fun hd => by cases hd), fun hb => absurd hb hnot, fun _ hk => by cases hk⟩
  | refused =>
      exact ⟨h, (fun hd => by cases hd), fun hb => absurd hb hnot, fun _ hk => by cases hk⟩
  | missing =>
      exact ⟨h, (fun hd => by cases hd), fun hb => absurd hb hnot, fun _ hk => by cases hk⟩

theorem boundary_client {s s' : Session} (hb : Base false s) (h : Boundary false s)
    (hm : ClientMove cfg s s') : Boundary false s' := by
  obtain ⟨hlog, hans, hbody, hcomplete⟩ := h
  have hinside : s.r.inHandler = .headers → s.r.inHandler ≠ .body := fun hin => by rw [hin]; simp
  cases hm with
  | called hl => exact ⟨hlog, hans, hbody, hcomplete⟩
  | lineMore hopen hin hp =>
      have hout := (hb.fresh hin hopen).2.2.1
      obtain ⟨_, _, _, _, _, _, rfl, -⟩ := parseRequestLine_frame hp
      exact ⟨hlog, hans, hbody, hcomplete⟩
  | lineError status hopen hin hp hrc hb =>
      obtain ⟨_, _, _, _, _, _, rfl, -⟩ := parseRequestLine_frame hp
      exact ⟨hlog, (fun hd => by cases hd), hbody, fun _ hk => by cases hk⟩
  | @lineOk r s' k hopen hin hp huri =>
      have hout := (hb.fresh hin hopen).2.2.1
      have hd : r.bodyDone = false := by
        obtain ⟨_, _, _, _, _, _, rfl, -⟩ := parseRequestLine_frame hp
        exact hopen
      exact boundary_uri (s := { s with r := { r with keepAlive := k, inHandler := .headers } }) hlog
        rfl hd hout huri
  | headersMore hin hp =>
      obtain ⟨_, _, _, _, rfl, -, -⟩ := parseHeaderLine_frame hp
      exact ⟨hlog, hans, hbody, hcomplete⟩
  | header hin hp =>
      obtain ⟨_, _, _, _, rfl, -, -⟩ := parseHeaderLine_frame hp
      exact ⟨hlog, hans, hbody, hcomplete⟩
  | headerSet hs k te n hin hp hget hk =>
      obtain ⟨_, _, _, _, rfl, -, -⟩ := parseHeaderLine_frame hp
      exact ⟨hlog, fun hd hka => hans hd (hk hka), hbody, fun hd hka => hcomplete hd (hk hka)⟩
  | headerError hs status hin hp hget hb =>
      obtain ⟨_, _, _, _, rfl, -, -⟩ := parseHeaderLine_frame hp
      exact ⟨hlog, (fun hd => by cases hd), hbody, fun _ hk => by cases hk⟩
  | headersEnd hin hp =>
      obtain ⟨_, _, _, _, rfl, -, -⟩ := parseHeaderLine_frame hp
      exact ⟨hlog, hans, (fun _ => by simp [headersEnd]), fun _ _ => by simp [headersEnd]⟩
  | bodyMore n hin hlen huc => exact ⟨hlog, fun _ _ _ => huc, hbody, hcomplete⟩
  | bodyRelayed n hin huc =>
      exact ⟨hlog, (fun hd => by cases hd), (fun hb => by cases hb), fun _ _ => hbody hin⟩
  | bodyLocal n fd hin huc hb =>
      exact ⟨hlog, (fun hd => by cases hd), (fun hb => by cases hb), fun _ _ => hbody hin⟩

theorem completeResets_delivered (ds : List Output) (l : List Action) :
    CompleteResets (ds.map .delivered ++ l) ↔ CompleteResets l := by
  induction ds with
  | nil => rfl
  | cons d ds ih => exact ih

theorem boundary_response {p : Bool} {s s' : Session} (hb : Base p s) (hout : s.c.evOut = true)
    (h : Boundary p s) (hm : ResponseMove s s') : Boundary p s' := by
  cases hm with
  | sent hs hnot =>
      obtain ⟨sb, oh, done, fd, out, ds, fds, rfl, -, -, -, -, ho, -⟩ := hs
      have hend := (log_delivered ds s.log).2.2
      refine ⟨(completeResets_delivered ds _).mpr h.resets, fun hd hk hout' => h.answered hd hk (ho hout'),
        fun hin => ?_, fun hd hk => ?_⟩
      · rw [hend]
        exact h.body hin
      · rw [hend]
        exact h.complete hd hk
  | cleared hs hd hk =>
      obtain ⟨huc, -⟩ := hb.cleared hs hd hk
      obtain ⟨sb, oh, done, fd, out, ds, fds, rfl, -⟩ := hs
      have hend := (log_delivered ds s.log).2.2
      -- the request being reset has no upstream, so it is complete
      have hdone : s.r.bodyDone = true := by
        by_contra hopen
        exact h.answered (Bool.eq_false_of_not_eq_true hopen) hk hout huc
      refine ⟨⟨⟨hdone, ?_⟩, (completeResets_delivered ds _).mpr h.resets⟩, (fun _ hk' => by cases hk'),
        (fun hin => by cases hin), fun hd' => by cases hd'⟩
      rw [hend]
      exact h.complete hdone hk

theorem invariant_boundary : Invariant cfg NoEarlyClose Boundary (Boundary false) where
  share _ _ _ h := ⟨h.resets, h.answered, h.body, h.complete⟩
  poll _ _ _ _ _ h := ⟨h.resets, h.answered, h.body, h.complete⟩
  receive s d _ h := ⟨h.resets, h.answered, h.body, h.complete⟩
  call _ _ _ _ _ _ _ _ h := h
  client _ _ hb h hm := boundary_client hb h hm
  late s s' e d _ hl _ _ _ h hm := by
    cases hm with
    | aborted => exact ⟨h.resets, h.answered, h.body, h.complete⟩
    | empty => exact ⟨h.resets, h.answered, h.body, h.complete⟩
  return_ _ _ h := h
  pass p s s' e _ huc _ _ h hm := by
    cases hm with
    | done hsend => exact ⟨h.resets, fun _ _ _ => huc, h.body, h.complete⟩
    | part hn => exact ⟨h.resets, fun _ _ _ => huc, h.body, h.complete⟩
    | failed hn hsend hb =>
        exact ⟨h.resets, (fun hd => by cases hd), h.body, fun _ hk => by cases hk⟩
  upstream p s s' e _ huc _ h hm := by
    cases hm with
    | more hrecv => exact ⟨h.resets, fun _ _ _ => huc, h.body, h.complete⟩
    | eof hrecv => exact ⟨h.resets, fun _ _ _ => huc, h.body, h.complete⟩
    | failed hrecv hb =>
        exact ⟨h.resets, (fun hd => by cases hd), h.body, fun _ hk => by cases hk⟩
  response _ _ _ hb hout h hm := boundary_response hb hout h hm
  close s _ _ hgood h :=
    ⟨h.resets, fun hd hk hout => absurd ⟨hd, hk, hout⟩ hgood, h.body, h.complete⟩

theorem boundary_init {v : View} (h : v.Init) : Boundary v.pend v.s := by
  obtain ⟨r₀, c, hr⟩ := h.request
  refine ⟨?_, fun _ _ hout => absurd (h.evOut.symm.trans hout) (by simp), fun hin => ?_, fun hd => ?_⟩
  · rw [h.log]
    trivial
  · rw [hr] at hin
    cases hin
  · rw [hr] at hd
    cases hd

/-! ### Runs of the worker -/

/-- A local request on a kept connection, answered completely. -/
def keptRun : List Label :=
  Server.opened ++
  Server.single 0 0 true
    { idleEnv with
      recvs := [.got (bytes "GET /i.html HTTP/1.1\r\n\r\n")], resource := fun _ => .file 9 0 } ++
  Server.single 0 0 false { idleEnv with sends := [.sent 2048], files := [.sent 0] }

/-- The upstream answers a request whose headers are not complete, and closes; then the response
is sent. -/
def earlyCloseRun : List Label :=
  Server.opened ++
  Server.single 0 0 true { idleEnv with recvs := [.got (bytes "POST /p HTTP/1.1\r\nHost: a\r\n")] } ++
  Server.single 0 1 true { idleEnv with recvs := [.got (bytes "HTTP/1.1 200 OK\r\n\r\n")] } ++
  Server.single 0 1 true { idleEnv with recvs := [.got []] } ++ [.sweep 0] ++
  Server.single 0 0 false { idleEnv with sends := [.sent 19] }

end SyServer
