import SyServer.Sessions

/-! # Unsent bytes are waited for

`Armed`: while `sb` holds unsent bytes, `EVENTS_OUT` of the front connection is on.  `sb` is filled
by a local response, by an error page and by the upstream; every path turns `EVENTS_OUT` on but
one: where `sy_buffer_recv` meets the end of the upstream's stream behind its last bytes,
`sy_handle_upstream` returns before `sy_connection_enable_out`.  With that call excluded `Armed`
is an invariant of every run. -/

namespace SyServer

open Transition (Reach exec along_true exists_of_any)

variable {cfg : Config}

/-! ### The invariant -/

/-- Unsent bytes are waited for. -/
def Armed (_ : Bool) (s : Session) : Prop := s.r.sb.begin < s.r.sb.end_ → s.c.evOut = true

/-- No upstream sends its last bytes and closes in one call while `EVENTS_OUT` is off. -/
def NoLastBytes (v : View) : SessionEvent → Prop
  | .upstream e => (v.s.r.sb.recv e.recvs).1 = .ok → (v.s.r.sb.recv e.recvs).2.2 ≠ [] →
      v.s.c.evOut = true
  | _ => True

instance (v : View) : ∀ ev, Decidable (NoLastBytes v ev)
  | .upstream _ => inferInstanceAs (Decidable (_ → _ → _))
  | .poll _ | .share _ | .request _ | .response _ | .pass _ | .close => .isTrue trivial

theorem armed_uri {s s' : Session} (h : Armed false s) (hm : UriMove s s') : Armed false s' := by
  cases hm with
  | proxied => exact h
  | found => exact h
  | _ => exact fun _ => rfl

theorem parseRequestLine_sb {r r' : Request} {rc : Rc} (hp : parseRequestLine r = .ok (rc, r')) :
    r'.sb = r.sb := by
  obtain ⟨_, _, _, _, _, _, rfl, -⟩ := parseRequestLine_frame hp
  rfl

theorem parseHeaderLine_sb {r r' : Request} {rc : Rc} (hp : parseHeaderLine r = .ok (rc, r')) :
    r'.sb = r.sb := by
  obtain ⟨_, _, _, _, rfl, -, -⟩ := parseHeaderLine_frame hp
  rfl

theorem armed_client {s s' : Session} (h : Armed false s) (hm : ClientMove cfg s s') :
    Armed false s' := by
  have hsb : ∀ r : Request, r.sb = s.r.sb → r.sb.begin < r.sb.end_ → s.c.evOut = true :=
    fun r hr => by rw [hr]; exact h
  cases hm with
  | called hl => exact h
  | lineMore hopen hin hp => exact hsb _ (parseRequestLine_sb hp)
  | lineError status hopen hin hp hrc hb => exact fun _ => rfl
  | @lineOk r s' k hopen hin hp huri =>
      have hr : Armed false { s with r := { r with keepAlive := k, inHandler := .headers } } :=
        hsb r (parseRequestLine_sb hp)
      exact armed_uri hr huri
  | headersMore hin hp => exact hsb _ (parseHeaderLine_sb hp)
  | header hin hp => exact hsb _ (parseHeaderLine_sb hp)
  | @headerSet r v hs k te n hin hp hget hk => exact hsb r (parseHeaderLine_sb hp)
  | headerError hs status hin hp hget hb => exact fun _ => rfl
  | @headersEnd r hin hp => exact hsb r (parseHeaderLine_sb hp)
  | bodyMore n hin hlen huc => exact h
  | bodyRelayed n hin huc => exact h
  | bodyLocal n fd hin huc hb => exact fun _ => rfl

theorem armed_response {p : Bool} {s s' : Session} (h : Armed p s) (hm : ResponseMove s s') :
    Armed p s' := by
  cases hm with
  | sent hs hnot =>
      obtain ⟨sb, oh, done, fd, out, ds, fds, rfl, -, hpend, -⟩ := hs
      intro hlt
      obtain ⟨h1, rfl⟩ := hpend hlt
      exact h h1
  | cleared hs hd hk => exact fun hlt => absurd hlt (lt_irrefl _)

theorem invariant_armed : Invariant cfg NoLastBytes Armed (Armed false) where
  share _ _ _ h := h
  poll _ _ _ _ _ h := h
  receive _ _ _ h := h
  call _ _ _ _ _ _ _ _ h := h
  client _ _ _ h hm := armed_client h hm
  late s s' e d _ _ _ _ _ h hm := by
    cases hm with
    | aborted => exact h
    | empty => exact h
  return_ _ _ h := h
  pass p s s' e _ _ _ _ h hm := by
    cases hm with
    | done hsend => exact h
    | part hn => exact h
    | failed hn hsend hb => exact fun _ => rfl
  upstream p s s' e _ _ hgood h hm := by
    cases hm with
    | more hrecv => exact fun _ => rfl
    | failed hrecv hb => exact fun _ => rfl
    | @eof d hrecv =>
        by_cases hd : d = []
        · subst hd
          rwa [Buffer.put_nil]
        · intro _
          have hlast := hgood (by rw [hrecv]) (by rw [hrecv]; exact hd)
          exact hlast
  response _ _ _ _ _ h hm := armed_response h hm
  close _ _ _ _ h := h

theorem armed_init {v : View} (h : v.Init) : Armed v.pend v.s := by
  obtain ⟨r₀, c, hr⟩ := h.request
  intro hlt
  rw [hr] at hlt
  exact absurd hlt (lt_irrefl _)

/-! ### Runs of the worker -/

/-- Unsent bytes of a front connection that is not expired are waited for. -/
def Server.NoStrandedBytes (cfg : Config) (v : Server) : Prop :=
  ∀ a, v.Front a → v.g.heap.isExpired cfg.timeout v.now a = false →
    (v.reqs (v.conns a).r).sb.begin < (v.reqs (v.conns a).r).sb.end_ → (v.conns a).evOut = true

/-- **No response byte is stranded** in a run in which no upstream sends its last bytes and closes
in one call of `sy_handle_upstream` while `EVENTS_OUT` of the front connection is off. -/
theorem no_stranded_bytes {v : Server} (h : Server.Reached cfg (Server.Meets cfg NoLastBytes) v) :
    v.NoStrandedBytes cfg := by
  intro a ha _ hlt
  have harmed := Server.Reached.sessions invariant_armed (fun _ => armed_init) h a ha
  have hc : (v.view a).s.c = v.conns a := by
    show v.conns (v.reqs (v.conns a).r).c = v.conns a
    rw [((Server.Reached.sound h).wired.front a ha).2]
  rw [← hc]
  exact harmed hlt

/-- A request is forwarded, and the upstream answers. -/
def proxiedRun (answer : List RecvResult) : List Label :=
  Server.opened ++
  Server.single 0 0 true { idleEnv with recvs := [.got (bytes "GET /p HTTP/1.1\r\n\r\n")] } ++
  Server.single 0 1 false { idleEnv with sends := [.sent 19] } ++
  Server.single 1 1 true { idleEnv with recvs := answer }

/-- The answer, then the end of the stream in another call. -/
def answeredRun : List Label :=
  proxiedRun [.got (bytes "HTTP/1.1 200 OK\r\n\r\n")] ++
  Server.single 1 1 true { idleEnv with recvs := [.got []] }

theorem no_stranded_bytes_answered :
    ∃ v, exec (Server.step (serverConfig 60 [⟨true, bytes "/p"⟩])) Server.boot answeredRun = some v ∧
      v.Front 0 ∧ (v.reqs 0).sb.size = 19 ∧
      v.NoStrandedBytes (serverConfig 60 [⟨true, bytes "/p"⟩]) := by
  have hrun : (exec (Server.step (serverConfig 60 [⟨true, bytes "/p"⟩])) Server.boot answeredRun).any
      (fun v => decide (v.Front 0 ∧ (v.reqs 0).sb.size = 19)) := by
    decide +kernel
  obtain ⟨v, hv, hend⟩ := exists_of_any hrun
  obtain ⟨hfront, hsize⟩ := of_decide_eq_true hend
  have hreach := Reach.exec (.start Server.boot_init)
    (show Transition.Along _ (Server.Meets (serverConfig 60 [⟨true, bytes "/p"⟩]) NoLastBytes) _
      answeredRun by decide +kernel) hv
  exact ⟨v, hv, hfront, hsize, no_stranded_bytes hreach⟩

/-- The last bytes and the end of the stream in one call: the bytes are stranded. -/
theorem lastBytes_stranded :
    ¬ ∀ (cfg : Config) (v : Server), Server.Reached cfg (fun _ _ => True) v →
      v.NoStrandedBytes cfg := by
  intro hall
  have hrun : (exec (Server.step (serverConfig 60 [⟨true, bytes "/p"⟩])) Server.boot
      (proxiedRun [.got (bytes "HTTP/1.1 200 OK\r\n\r\n"), .got []])).any
      (fun v => decide (v.Front 0 ∧ v.g.heap.isExpired 60 v.now 0 = false ∧
        (v.reqs (v.conns 0).r).sb.begin < (v.reqs (v.conns 0).r).sb.end_ ∧
        (v.conns 0).evOut = false)) := by
    decide +kernel
  obtain ⟨v, hv, hend⟩ := exists_of_any hrun
  obtain ⟨hfront, hexp, hlt, hout⟩ := of_decide_eq_true hend
  have hreach := Reach.exec (.start Server.boot_init) (along_true _ _) hv
  have := hall _ v hreach 0 hfront hexp hlt
  rw [hout] at this
  cases this

end SyServer
