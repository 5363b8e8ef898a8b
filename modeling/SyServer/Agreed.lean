import SyServer.Deaths

/-! # The handler and the parser agree

`Agreed`: each call of `r->in_handler` finds the parser in a state of its own.  Behind a forwarded
request `in_handler` is `sy_request_handle_request_line` again while the state is left in the
states of the header lines; `sy_handle_pass` turns `EVENTS_IN` on, and bytes that arrive before the
response is done reach the parser of the request line.  With such calls excluded `Agreed` is an
invariant of every run, and no assertion of a parser fails. -/

namespace SyServer

open Transition (Reach exec along_true exists_of_any)

variable {cfg : Config}

/-! ### The invariant -/

/-- `in_handler` was called in a state of its parser. -/
def OwnState (h : InHandler) (st : PState) : Prop :=
  (h = .requestLine → st.requestLine = true) ∧ (h = .headers → st.headerLine = true)

/-- Every call so far found the parser in a state of its own. -/
def Agreed (_ : Bool) (s : Session) : Prop :=
  ∀ h st, Action.called h st ∈ s.log → OwnState h st

/-- `sy_handle_request` never gets past its `recv` while a complete request waits for its
response. -/
def NoLateBytes (v : View) : SessionEvent → Prop
  | .request e => (v.s.r.rb.recv e.recvs).1 = .again → ¬ v.s.Late
  | _ => True

instance (v : View) : ∀ ev, Decidable (NoLateBytes v ev)
  | .request _ => inferInstanceAs (Decidable (_ → ¬ (_ ∧ _)))
  | .poll _ | .share _ | .close | .response _ | .pass _ | .upstream _ => .isTrue trivial

theorem agreed_uri {s s' : Session} (h : Agreed false s) (hm : UriMove s s') : Agreed false s' := by
  unfold Agreed at h ⊢
  cases hm <;> simpa [Session.errored] using h

theorem agreed_client {s s' : Session} (hb : Base false s) (h : Agreed false s)
    (hm : ClientMove cfg s s') : Agreed false s' := by
  unfold Agreed at h
  cases hm with
  | called hl =>
      intro hd st hmem
      rcases List.mem_cons.mp hmem with hmem | hmem
      · cases hmem
        refine ⟨fun hin => ?_, fun hin => hb.headers (by rw [hin]; simp)⟩
        have hopen := Bool.eq_false_of_not_eq_true fun hd => hl ⟨hd, hin⟩
        exact (hb.fresh hin hopen).1.state
      · exact h hd st hmem
  | @lineOk r s' k hopen hin hp huri =>
      exact agreed_uri (s := { s with r := { r with keepAlive := k, inHandler := .headers } }) h huri
  | lineMore => exact h
  | headersMore => exact h
  | header => exact h
  | headerSet => exact h
  | bodyMore => exact h
  | bodyRelayed => exact h
  | lineError => unfold Agreed; simpa [Session.errored] using h
  | headerError => unfold Agreed; simpa [Session.errored] using h
  | headersEnd => unfold Agreed; simpa using h
  | bodyLocal => unfold Agreed; simpa using h

theorem invariant_agreed : Invariant cfg NoLateBytes Agreed (Agreed false) where
  share _ _ _ h := h
  poll _ _ _ _ _ h := h
  receive s d _ h := by
    unfold Agreed at h ⊢
    simpa [Session.receive] using h
  call _ _ _ _ _ _ _ _ h := h
  client _ _ hb h hm := agreed_client hb h hm
  late s s' e d _ hl hgood hrc _ _ _ := absurd hl (hgood hrc)
  return_ _ _ h := h
  pass p s s' e _ _ _ _ h hm := by
    unfold Agreed at h ⊢
    cases hm <;> simpa [Session.errored] using h
  upstream p s s' e _ _ _ h hm := by
    unfold Agreed at h ⊢
    cases hm <;> simpa [Session.errored] using h
  response p s s' _ _ h hm := by
    unfold Agreed at h ⊢
    cases hm with
    | sent hs hnot =>
        obtain ⟨sb, oh, done, fd, out, ds, fds, rfl, -⟩ := hs
        simpa using h
    | cleared hs hd hk =>
        obtain ⟨sb, oh, done, fd, out, ds, fds, rfl, -⟩ := hs
        simpa [Session.clear, Session.note] using h
  close _ _ _ _ h := h

theorem agreed_init {v : View} (h : v.Init) : Agreed v.pend v.s := by
  unfold Agreed
  rw [h.log]
  simp

/-! ### Runs of the worker -/

/-- Every call of `in_handler` found the parser in a state of its own, and if the worker has died,
it was not of an assertion of a parser. -/
def Server.ParsersAgree (v : Server) : Prop :=
  (∀ a, v.Front a → ∀ h st, Action.called h st ∈ v.log (v.conns a).r → OwnState h st) ∧
    ∀ f, v.dead = some f → f.parser = false

/-- **The handler and the parser agree** in a run in which `sy_handle_request` never gets past its
`recv` while a complete request waits for its response. -/
theorem parsers_agree {v : Server} (h : Server.Reached cfg (Server.Meets cfg NoLateBytes) v) :
    v.ParsersAgree := by
  refine ⟨fun a ha => Server.Reached.sessions invariant_agreed (fun _ => agreed_init) h a ha, ?_⟩
  have hnone : ∀ {l : List Fault} {f : Fault}, (∀ g ∈ l, g.parser = false) → f ∈ l → f.parser = false :=
    fun hl hf => hl _ hf
  exact Server.Reached.never Fault.parser (J := fun _ _ => True) (by decide)
    (fun _ _ _ _ _ => trivial)
    (fun s e f hb _ hgood hf => hnone (by decide) (raises_handleRequest hb hgood f hf))
    (fun p s e f _ _ hf => hnone (by decide) (raises_handleUpstream f hf))
    (fun p s e f _ _ hf => hnone (by decide) (raises_handlePass f hf)) h

/-- A request is forwarded, and the client is heard again. -/
def forwardedRun (late : List RecvResult) : List Label :=
  Server.opened ++
  Server.single 0 0 true { idleEnv with recvs := [.got (bytes "GET /p HTTP/1.1\r\n\r\n")] } ++
  Server.single 0 1 false { idleEnv with sends := [.sent 19] } ++
  [.poll [.conn 0 true false], .serveIn (.at 0) { idleEnv with recvs := late }]

/-- The client has closed its side. -/
theorem parsers_agree_closed :
    ∃ v, exec (Server.step (serverConfig 60 [⟨true, bytes "/p"⟩])) Server.boot
        (forwardedRun [.got []]) = some v ∧ v.ParsersAgree := by
  have hrun : (exec (Server.step (serverConfig 60 [⟨true, bytes "/p"⟩])) Server.boot
      (forwardedRun [.got []])).any (fun v => decide (v.dead = none)) := by
    decide +kernel
  obtain ⟨v, hv, -⟩ := exists_of_any hrun
  have hreach := Reach.exec (.start Server.boot_init)
    (show Transition.Along _ (Server.Meets (serverConfig 60 [⟨true, bytes "/p"⟩]) NoLateBytes) _
      (forwardedRun [.got []]) by decide +kernel) hv
  exact ⟨v, hv, parsers_agree hreach⟩

/-- One byte behind a forwarded request reaches the `assert(false)` of `sy_parse_request_line`. -/
theorem lateByte_aborts :
    ¬ ∀ (cfg : Config) (v : Server), Server.Reached cfg (fun _ _ => True) v → v.ParsersAgree := by
  intro hall
  have hrun : (exec (Server.step (serverConfig 60 [⟨true, bytes "/p"⟩])) Server.boot
      (forwardedRun [.got (bytes "G")])).any
      (fun v => decide (v.dead = some .requestLineState)) := by
    decide +kernel
  obtain ⟨v, hv, hend⟩ := exists_of_any hrun
  have hreach := Reach.exec (.start Server.boot_init) (along_true _ _) hv
  have := (hall _ v hreach).2 _ (of_decide_eq_true hend)
  cases this

end SyServer
