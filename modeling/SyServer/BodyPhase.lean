import SyServer.Contract
import SyServer.Deaths
import SyServer.Wedged

/-! # The body behind the headers

The header lines settle how the body of a request is framed: its encoding and its length
(`Framing`).  `sy_request_handle_body` has code for the identity encoding only, and for a body that
is still to come only if there is an upstream to send it to.  A request is `Carried` if its body is
there or an upstream is, and with requests of this kind no call reaches the assertions below
`sy_request_handle_body` (`bodyPhase_safe`). -/

namespace SyServer

open Relation (ReflTransGen)
open Transition (Reach exec along_true exists_of_any)

variable {cfg : Config}

/-! ### The framing of the body -/

theorem framing_fold (date : List UInt8) : LineFold date (fun s => s.r.framing) Framing.line where
  parse hp := by
    obtain ⟨_, _, _, _, rfl, -, -⟩ := parseHeaderLine_frame hp
    rfl
  done _ _ := rfl
  same h := h.framing_line
  skip f hnone := by
    unfold Framing.line
    rw [if_neg (contractGet_unnamed "transfer_encoding" hnone (by decide)),
      if_neg (contractGet_unnamed "content_length" hnone (by decide))]
  run hv h := Processor.run_framing hv h

/-- No line has a part in the upstream, or in the bytes of the body that have come. -/
theorem upstream_fold (date : List UInt8) :
    LineFold date (fun s => (s.r.uc, s.u, s.r.bodyReceived)) fun _ a => a where
  parse hp := by
    obtain ⟨_, _, _, _, rfl, -, -⟩ := parseHeaderLine_frame hp
    rfl
  done _ _ := rfl
  same _ := rfl
  skip _ _ := rfl
  run _ h := by
    obtain ⟨-, ⟨_, _, _, _, -, rfl⟩ | ⟨_, _, _, -, rfl⟩⟩ := Processor.run_cases h <;> rfl

/-! ### Requests that can be carried -/

/-- A body of this length is there with `size` bytes more. -/
def BodyThere (length received : ℤ) (size : ℕ) : Prop :=
  length ≤ 0 ∨ length ≤ wrap32 (received + size)

/-- If the header lines in `rb` are the last, and none was answered by a page, then they leave the
body in the identity encoding, and it is there or there is an upstream. -/
def Carried (r : Request) : Prop :=
  linesEnd (r.rb.size + 1) r = true →
    let f := (callLines r).1.foldl (fun f l => Framing.line l f) r.framing
    f.page = false → f.encoding = .identity ∧
      (r.uc ≠ none ∨ BodyThere f.length r.bodyReceived (callLines r).2.rb.size)

instance (n m : ℤ) (k : ℕ) : Decidable (BodyThere n m k) := inferInstanceAs (Decidable (_ ∨ _))

instance (r : Request) : Decidable (Carried r) :=
  inferInstanceAs (Decidable (_ = true → _ = false → _ = _ ∧ (_ ∨ _)))

/-- The session behind a complete request line. -/
def lineDone (cfg : Config) (e : Env) (s : Session) : Option Session :=
  match requestHandleRequestLine cfg e (s.note (.called .requestLine s.r.state)) with
  | .ok (.ok, s') => some s'
  | _ => none

/-- The headers end in a call from here only if the request can be carried; behind them there is an
upstream, or the body is there with this call. -/
def CarriesFrom (cfg : Config) (e : Env) (s : Session) : Prop :=
  (s.r.inHandler = .requestLine → ∀ s' ∈ lineDone cfg e s, s'.r.bodyDone = false → Carried s'.r) ∧
    (s.r.inHandler = .headers → Carried s.r) ∧
      (s.r.inHandler = .body →
        s.r.uc ≠ none ∨ BodyThere s.r.contentLength s.r.bodyReceived s.r.rb.size)

instance (cfg : Config) (e : Env) (s : Session) : Decidable (CarriesFrom cfg e s) :=
  inferInstanceAs (Decidable ((_ = _ → ∀ s' ∈ lineDone cfg e s, _) ∧ (_ = _ → _) ∧ (_ = _ → _ ∨ _)))

/-- Each call of `sy_handle_request` that receives something is for a request that can be carried. -/
def Carries (cfg : Config) (v : View) : SessionEvent → Prop
  | .request e =>
      (v.s.r.rb.recv e.recvs).1 = .again →
        CarriesFrom cfg e (v.s.receive (v.s.r.rb.recv e.recvs).2.2)
  | _ => True

instance (cfg : Config) (v : View) : ∀ ev, Decidable (Carries cfg v ev)
  | .request _ => inferInstanceAs (Decidable (_ = _ → CarriesFrom _ _ _))
  | .poll _ | .share _ | .close | .response _ | .pass _ | .upstream _ => .isTrue trivial

/-! ### A call of `sy_handle_request` -/

/-- The two assertions below `sy_request_handle_body` that are not about `sb`. -/
def Fault.bodyPhase : Fault → Bool
  | bodyEncoding | nullUpstream => true
  | _ => false

/-- A page was put while the headers came, and no call of `sy_request_handle_body` follows. -/
def Parked (p : Bool) (s : Session) : Prop :=
  s.c.evIn = false ∧ p = false ∧ (s.r.uc ≠ none → s.u.evOut = false)

/-- Behind the headers the encoding is the identity, or the session is parked. -/
def Plain (p : Bool) (s : Session) : Prop :=
  s.r.inHandler = .body → s.r.tEncoding = .identity ∨ Parked p s

/-- The call fails no assertion of the body phase, and leaves a plain session if it returns. -/
abbrev Spared : Except Fault Rc × Session → Prop := Safely Fault.bodyPhase (Plain false)

section call

variable {e : Env} {s s' : Session} {rc : Rc}

theorem parseRequestBodyIdentity_again {r r' : Request}
    (h : parseRequestBodyIdentity r = (.again, r')) :
    ¬ BodyThere r.contentLength r.bodyReceived r.rb.size := by
  unfold parseRequestBodyIdentity at h
  dsimp only at h
  split_ifs at h with h1 h2 <;> cases h
  rintro (h3 | h3)
  · exact h1 h3
  · exact h2 h3

theorem raises_enableUpstreamOut_some (huc : s.r.uc ≠ none) : Raises [] (enableUpstreamOut s) := by
  unfold enableUpstreamOut
  rw [if_neg huc]
  exact raises_ok _

/-- The body handler on a request that it supports. -/
theorem raises_carried (hte : s.r.tEncoding = .identity)
    (hbody : s.r.uc ≠ none ∨ BodyThere s.r.contentLength s.r.bodyReceived s.r.rb.size) :
    Raises lineFaults (requestHandleBody e s) := by
  obtain ⟨n, hr, -⟩ := parseRequestBodyIdentity_frame s.r
  obtain ⟨err, r, hp⟩ : ∃ err r, parseRequestBodyIdentity s.r = (err, r) := ⟨_, _, rfl⟩
  rw [hp] at hr
  dsimp only at hr
  subst hr
  unfold requestHandleBody
  rw [if_neg (not_not.mpr hte), hp]
  cases err with
  | again =>
      have huc : s.r.uc ≠ none := hbody.resolve_right (parseRequestBodyIdentity_again hp)
      apply raises_bind
      · exact (raises_enableUpstreamOut_some (by exact huc)).mono (List.nil_subset _)
      · exact fun _ _ => raises_ok _
  | ok =>
      refine raises_bind ?_ fun _ _ => raises_ok _
      unfold bodyRespond
      split_ifs with huc
      · exact raises_bind (raises_responseBuild _ _) fun _ _ => raises_ok _
      · exact (raises_enableUpstreamOut_some (by exact huc)).mono (List.nil_subset _)
  | _ => exact (raises_responseBuildErr _ _ _).mono (List.subset_cons_self _ _)

/-- What it leaves: the encoding as it was, or a complete request. -/
theorem requestHandleBody_plain (hte : s.r.tEncoding = .identity)
    (h : requestHandleBody e s = .ok (rc, s')) :
    s'.r.tEncoding = .identity ∧ (rc = .ok → s'.r.bodyDone = true) := by
  obtain ⟨n, hr, -⟩ := parseRequestBodyIdentity_frame s.r
  obtain ⟨err, r, hp⟩ : ∃ err r, parseRequestBodyIdentity s.r = (err, r) := ⟨_, _, rfl⟩
  rw [hp] at hr
  dsimp only at hr
  subst hr
  unfold requestHandleBody at h
  rw [if_neg (not_not.mpr hte), hp] at h
  cases err with
  | again =>
      obtain ⟨s₁, h1, h2⟩ := bind_ok h
      cases h2
      obtain ⟨-, rfl⟩ := enableUpstreamOut_ok h1
      exact ⟨hte, fun hrc => by cases hrc⟩
  | ok =>
      obtain ⟨s₁, h1, h2⟩ := bind_ok h
      cases h2
      refine ⟨?_, fun _ => rfl⟩
      unfold bodyRespond at h1
      split_ifs at h1 with huc
      · obtain ⟨r', h3, h4⟩ := bind_ok h1
        cases h4
        obtain ⟨b, fd, rfl, -, -⟩ := responseBuild_spec h3
        exact hte
      · obtain ⟨-, rfl⟩ := enableUpstreamOut_ok h1
        exact hte
  | _ =>
      obtain ⟨-, b, -, rfl⟩ := responseBuildErr_spec h
      exact ⟨hte, fun _ => rfl⟩

/-- A call that begins with the body. -/
theorem requestLoop_body_spared {n : ℕ} (hin : s.r.inHandler = .body)
    (hte : s.r.tEncoding = .identity)
    (hbody : s.r.uc ≠ none ∨ BodyThere s.r.contentLength s.r.bodyReceived s.r.rb.size) :
    Spared (requestLoop cfg e (n + 1) s) := by
  apply requestLoop_round
  · intro f hf
    rw [hin] at hf
    exact safely_error (by decide) (raises_carried (s := s.note _) hte hbody f hf) _
  · intro rc s' h _
    rw [hin] at h
    exact safely_ok (fun _ => .inl (requestHandleBody_plain (s := s.note _) hte h).1) rc
  · intro s' h hd
    rw [hin] at h
    have hdone := (requestHandleBody_plain (s := s.note _) hte h).2 rfl
    rw [hd] at hdone
    cases hdone

/-- What the header loop leaves, line by line. -/
theorem requestHandleHeaders_lines (hcfg : cfg.headerGet = contractGet)
    (h : requestHandleHeaders cfg e s = .ok (rc, s')) :
    s'.r.rb = (callLines s.r).2.rb ∧
      s'.r.framing = (callLines s.r).1.foldl (fun f l => Framing.line l f) s.r.framing ∧
        s'.r.uc = s.r.uc ∧ s'.u = s.u ∧ s'.r.bodyReceived = s.r.bodyReceived ∧
          (rc = .ok ↔ linesEnd (s.r.rb.size + 1) s.r = true) := by
  obtain ⟨h1, h2, h3⟩ := headersLoop_fold (framing_fold e.date) hcfg (.refl _) h
  obtain ⟨-, h4, -⟩ := headersLoop_fold (upstream_fold e.date) hcfg (.refl _) h
  rw [List.foldl_fixed] at h4
  simp only [Prod.mk.injEq] at h4
  exact ⟨h1.rb, h2, h4.1, h4.2.1, h4.2.2, h3⟩

/-- A call that begins with the headers. -/
theorem requestLoop_headers_spared {n : ℕ} (hin : s.r.inHandler = .headers)
    (hcfg : cfg.headerGet = contractGet) (hready : HeaderReady s.r)
    (hquiet : s.r.uc ≠ none → s.u.evOut = false)
    (hpage : s.r.bodyDone = true → s.c.evIn = false) (hcarried : Carried s.r) :
    Spared (requestLoop cfg e (n + 2) s) := by
  apply requestLoop_round
  · intro f hf
    rw [hin] at hf
    exact safely_error (by decide) (raises_headersLoop (s := s.note _) hready f hf) _
  · intro rc s' h hend
    rw [hin] at h
    apply safely_ok
    intro hin'
    right
    have hok : rc = .ok := by
      by_contra hrc
      have := (headersLoop_drained (s := s.note _) (Nat.lt_succ_self _) h hrc).2
      rw [hin'] at this
      exact absurd (this.trans hin) (by simp)
    obtain ⟨-, -, huc, hu, -⟩ := requestHandleHeaders_lines (s := s.note _) hcfg h
    refine ⟨?_, rfl, by rw [huc, hu]; exact hquiet⟩
    apply Bool.eq_false_of_not_eq_true
    intro hev
    obtain ⟨hev₀, hd⟩ := moves_evIn (headersLoop_moves (s := s.note _) hin h) hev
    exact absurd ((hpage (hd.symm.trans (hend hok))).symm.trans hev₀) (by simp)
  · intro s' h hd
    rw [hin] at h
    obtain ⟨hrb, hframing, huc, -, hreceived, hend⟩ := requestHandleHeaders_lines (s := s.note _) hcfg h
    have hpage' : ((callLines s.r).1.foldl (fun f l => Framing.line l f) s.r.framing).page = false :=
      (congrArg Framing.page hframing).symm.trans hd
    obtain ⟨hte, hbody⟩ := hcarried (hend.mp rfl) hpage'
    apply requestLoop_body_spared (headersLoop_ok h)
    · exact (congrArg Framing.encoding hframing).trans hte
    · rw [huc, hreceived, hrb, show s'.r.contentLength = _ from congrArg Framing.length hframing]
      exact hbody

/-- The handler of the request line leaves an upstream that nothing is sent to yet. -/
theorem requestHandleRequestLine_head (hin : s.r.inHandler = .requestLine) (huc : s.r.uc = none)
    (h : requestHandleRequestLine cfg e s = .ok (rc, s')) :
    s'.r.inHandler ≠ .body ∧ (s'.r.uc ≠ none → s'.u.evOut = false) := by
  obtain ⟨⟨err, r⟩, hp, h2⟩ := bind_ok h
  obtain ⟨_, _, _, _, _, _, rfl, -⟩ := parseRequestLine_frame hp
  have hhere : ∀ {t : Session}, t.r.inHandler = s.r.inHandler → t.r.uc = s.r.uc →
      t.r.inHandler ≠ .body ∧ (t.r.uc ≠ none → t.u.evOut = false) := by
    intro t h1 h2
    refine ⟨by rw [h1, hin]; simp, fun h3 => absurd (h2.trans huc) h3⟩
  dsimp only at h2
  split_ifs at h2
  · cases h2
    exact hhere rfl rfl
  · obtain ⟨-, b, -, rfl⟩ := responseBuildErr_spec h2
    exact hhere rfl rfl
  · obtain ⟨-, b, -, rfl⟩ := responseBuildErr_spec h2
    exact hhere rfl rfl
  · cases requestHandleUri_move h2 with
    | proxied => exact ⟨by simp, fun _ => rfl⟩
    | refused => exact ⟨by simp [Session.errored], fun h3 => absurd rfl h3⟩
    | notFound => exact ⟨by simp [Session.errored], fun h3 => absurd huc h3⟩
    | missing => exact ⟨by simp [Session.errored], fun h3 => absurd huc h3⟩
    | found => exact ⟨by simp, fun h3 => absurd huc h3⟩

/-- A call that begins with the request line. -/
theorem requestLoop_line_spared {n : ℕ} (hin : s.r.inHandler = .requestLine)
    (hopen : s.r.bodyDone = false) (hcfg : cfg.headerGet = contractGet) (hb : Base false s)
    (hcarried : ∀ s', requestHandleRequestLine cfg e (s.note (.called .requestLine s.r.state)) =
      .ok (.ok, s') → s'.r.bodyDone = false → Carried s'.r) :
    Spared (requestLoop cfg e (n + 3) s) := by
  obtain ⟨hready, huc, -⟩ := hb.fresh hin hopen
  have hb' : Base false (s.note (.called .requestLine s.r.state)) := by
    rw [← hin]
    have hlate : ¬ s.Late := fun hl => absurd (hl.1.symm.trans hopen) (by simp)
    exact base_client hb (@ClientMove.called cfg s hlate)
  apply requestLoop_round
  · intro f hf
    rw [hin] at hf
    exact safely_error (by decide) (raises_requestLine (s := s.note _) hready f hf) _
  · intro rc s' h _
    rw [hin] at h
    refine safely_ok (fun hbody => ?_) rc
    exact absurd hbody (requestHandleRequestLine_head (s := s.note _) hin huc h).1
  · intro s' h hd
    rw [hin] at h
    have hin' : s'.r.inHandler = .headers := by
      rcases requestHandleRequestLine_ok h with hd' | hin'
      · rw [hd] at hd'
        cases hd'
      · exact hin'
    have hb'' := base_client hb' (requestHandleRequestLine_move (s := s.note _) hopen hin h)
    exact requestLoop_headers_spared hin' hcfg (hb''.headers (by rw [hin']; simp))
      (requestHandleRequestLine_head (s := s.note _) hin huc h).2
      (fun hd' => absurd (hd'.symm.trans hd) (by simp)) (hcarried s' h hd)

/-- **A call of `sy_handle_request` for a request that is carried.** -/
theorem handleRequest_spared (hcfg : cfg.headerGet = contractGet) (hb : Base true s) (hr : Relay true s)
    (hu : Unread true s) (hk : Plain true s) (hgood : Carries cfg ⟨true, s⟩ (.request e)) :
    Spared (handleRequest cfg e s) := by
  obtain ⟨rc, d, hrecv, -, -⟩ := Buffer.recv_spec e.recvs s.r.rb
  unfold handleRequest
  dsimp only [Carries] at hgood
  rw [hrecv] at hgood ⊢
  dsimp only at hgood ⊢
  split_ifs with hrc
  · refine safely_ok (fun hbody => .inl ?_) _
    exact (hk hbody).resolve_right fun h => by cases h.2.1
  change Spared (requestLoop cfg e 3 (s.receive d))
  obtain ⟨hline, hheaders, hbody⟩ := hgood (not_not.mp hrc)
  have hb' := base_receive hb d
  cases hin : s.r.inHandler with
  | requestLine =>
      cases hd : s.r.bodyDone with
      | true =>
          refine requestLoop_late_safely hin (hb.late_pending ⟨hd, hin⟩) rfl fun hbody => ?_
          exact absurd (hin.symm.trans hbody) (by simp)
      | false =>
          refine requestLoop_line_spared hin hd hcfg hb' fun s' h => hline hin s' ?_
          unfold lineDone
          rw [h]
          rfl
  | headers =>
      exact requestLoop_headers_spared hin hcfg
        (hb'.headers (by rw [show (s.receive d).r.inHandler = .headers from hin]; simp))
        (fun huc => (hr.tracked.head hin huc).2.2.1) (hu.page hin) (hheaders hin)
  | body =>
      have hte := (hk hin).resolve_right fun h => by cases h.2.1
      exact requestLoop_body_spared hin hte (hbody hin)

theorem requestHandleBody_carried (h : requestHandleBody e s = .ok (rc, s')) :
    s.r.tEncoding = .identity ∧
      (s.r.uc ≠ none ∨ BodyThere s.r.contentLength s.r.bodyReceived s.r.rb.size) := by
  unfold requestHandleBody at h
  split_ifs at h with hte
  refine ⟨not_not.mp hte, or_iff_not_imp_right.mpr fun hthere => ?_⟩
  have hp : parseRequestBodyIdentity s.r =
      (.again, { s.r with bodyReceived := wrap32 (s.r.bodyReceived + s.r.rb.size) }) := by
    unfold BodyThere at hthere
    unfold parseRequestBodyIdentity
    dsimp only
    rw [if_neg (not_or.mp hthere).1, if_neg (not_or.mp hthere).2]
  rw [hp] at h
  obtain ⟨s₁, h1, -⟩ := bind_ok h
  exact (enableUpstreamOut_ok h1).1

theorem carried_of_returns {n : ℕ} (hcfg : cfg.headerGet = contractGet) (hin : s.r.inHandler = .headers)
    (h : ∃ rc, (requestLoop cfg e (n + 2) s).1 = .ok rc) : Carried s.r := by
  intro hend
  obtain ⟨rc, s', hrun, hnext⟩ := requestLoop_returns h
  rw [hin] at hrun
  obtain ⟨hrb, hframing, huc, -, hreceived, hok⟩ := requestHandleHeaders_lines (s := s.note _) hcfg hrun
  obtain rfl := hok.mpr hend
  intro f hpage
  have hpage' : s'.r.framing.page = false := by
    rw [hframing]
    exact hpage
  obtain ⟨rc, s₂, hbody, -⟩ := requestLoop_returns (hnext rfl hpage')
  rw [headersLoop_ok hrun] at hbody
  obtain ⟨h5, h6⟩ := requestHandleBody_carried (s := s'.note _) hbody
  refine ⟨(congrArg Framing.encoding hframing).symm.trans h5, ?_⟩
  rw [show (s'.note _).r = s'.r from rfl, huc, hreceived, hrb,
    show s'.r.contentLength = f.length from congrArg Framing.length hframing] at h6
  exact h6

/-- The condition leaves out no call that returns. -/
theorem carries_of_returns (hcfg : cfg.headerGet = contractGet)
    (h : ∃ rc, (handleRequest cfg e s).1 = .ok rc) : Carries cfg ⟨true, s⟩ (.request e) := by
  obtain ⟨rc, d, hrecv, -, -⟩ := Buffer.recv_spec e.recvs s.r.rb
  unfold handleRequest at h
  dsimp only [Carries]
  rw [hrecv] at h ⊢
  dsimp only at h ⊢
  intro hrc
  rw [if_neg (not_not.mpr hrc)] at h
  change ∃ rc, (requestLoop cfg e 3 (s.receive d)).1 = .ok rc at h
  refine ⟨fun hin s' hs' hd => ?_, fun hin => carried_of_returns hcfg hin h, fun hin => ?_⟩
  · obtain ⟨rc, s₁, hrun, hnext⟩ := requestLoop_returns h
    rw [hin] at hrun
    unfold lineDone at hs'
    split at hs'
    · rename_i s₂ hrun'
      cases hs'
      cases hrun.symm.trans hrun'
      have hin' : s'.r.inHandler = .headers := by
        rcases requestHandleRequestLine_ok hrun' with hd' | hin'
        · rw [hd] at hd'
          cases hd'
        · exact hin'
      exact carried_of_returns hcfg hin' (hnext rfl hd)
    · cases hs'
  · obtain ⟨rc, s₁, hrun, -⟩ := requestLoop_returns h
    rw [hin] at hrun
    exact (requestHandleBody_carried (s := (s.receive d).note _) hrun).2

end call

/-! ### Runs of the worker -/

theorem plain_errored {p : Bool} {s : Session} {status : ℕ} {b : Buffer} (h : Plain p s) :
    Plain p (s.errored status b) := fun hin =>
  (h hin).imp_right fun hp => ⟨rfl, hp.2⟩

theorem alive_plain (hcfg : cfg.headerGet = contractGet) :
    Alive cfg (Carries cfg) (fun p s => Relay p s ∧ Unread p s) Plain where
  share _ _ _ h := h
  poll p b s _ hb h hin := by
    refine (h hin).imp_right fun hp => ⟨hp.1, ?_, hp.2.2⟩
    apply Bool.eq_false_of_not_eq_true
    intro hbt
    exact absurd ((hb hbt).symm.trans hp.1) (by simp)
  request s s' e rc hb hj h hgood hrun := by
    have := (handleRequest_spared hcfg hb hj.1 hj.2 h hgood).ok rc
    rw [hrun] at this
    exact this rfl
  response p s s' e rc hb _ h _ _ hrun := by
    cases handleResponse_move hb.sb hrun with
    | sent hs hnot =>
        obtain ⟨sb, oh, done, fd, out, ds, fds, rfl, -⟩ := hs
        exact h
    | cleared => exact fun hin => by cases hin
  upstream p s s' e rc _ _ h _ _ hrun := by
    cases handleUpstream_move hrun with
    | more => exact h
    | eof => exact h
    | failed => exact plain_errored (s := { s with r := { s.r with sb := _ }, log := _ }) h
  pass p s s' e rc hb _ h _ huc hout hrun := by
    -- while bytes are sent to the upstream, the session is not parked
    have hte : s.r.inHandler = .body → s.r.tEncoding = .identity := fun hin =>
      (h hin).resolve_right fun hp => absurd ((hp.2.2 huc).symm.trans hout) (by simp)
    cases handlePass_move hb.rb hrun with
    | done => exact fun hin => .inl (hte hin)
    | part => exact fun hin => .inl (hte hin)
    | failed => exact fun hin => .inl (hte hin)
  close s _ _ h _ _ hin := (h hin).imp_right fun hp => ⟨hp.1, hp.2.1, fun huc => absurd rfl huc⟩

/-- What holds of the open sessions of a living worker whose requests are carried. -/
theorem Server.Reached.plain (hcfg : cfg.headerGet = contractGet) {v : Server}
    (h : Server.Reached cfg (Server.Meets cfg (Carries cfg)) v) (hd : v.dead = none) {a : ConnAddr}
    (ha : v.Front a) :
    (Relay (v.view a).pend (v.view a).s ∧ Unread (v.view a).pend (v.view a).s) ∧
      Plain (v.view a).pend (v.view a).s := by
  have hj : ∀ w, Server.Reached cfg (Server.Meets cfg (Carries cfg)) w → w.dead = none →
      ∀ a, w.Front a → Relay (w.view a).pend (w.view a).s ∧ Unread (w.view a).pend (w.view a).s := by
    intro w hw hlive a ha
    have hall : Server.Reached cfg (Server.Meets cfg fun _ _ => True) w := hw.mono fun _ _ _ _ _ => trivial
    have hrelay := fun w hw (_ : w.dead = none) =>
      Server.Reached.sessions (v := w) (invariant_relay cfg) (fun _ => relay_init) hw
    exact ⟨hrelay w hall hlive a ha,
      Server.Reached.alive alive_unread (fun _ => unread_init) hrelay hall hlive a ha⟩
  refine ⟨hj v h hd a ha, ?_⟩
  refine Server.Reached.alive (alive_plain hcfg) (fun w hw hin => ?_) hj h hd a ha
  obtain ⟨r₀, c, hr⟩ := hw.request
  rw [hr] at hin
  cases hin

/-- The worker has not died of an assertion below `sy_request_handle_body`. -/
def Server.BodySafe (v : Server) : Prop := v.dead ≠ some .bodyEncoding ∧ v.dead ≠ some .nullUpstream

/-- **The body phase is safe** in a run in which every request is carried: `sy_request_handle_body`
runs with the identity encoding only, and with an upstream where the body is not there yet. -/
theorem bodyPhase_safe (timeout : ℤ) (locations : List Location) {v : Server}
    (h : Server.Reached (contractConfig timeout locations)
      (Server.Meets (contractConfig timeout locations) (Carries (contractConfig timeout locations))) v) :
    v.BodySafe := by
  have hnone : ∀ {l : List Fault} {f : Fault}, (∀ g ∈ l, g.bodyPhase = false) → f ∈ l →
      f.bodyPhase = false := fun hl hf => hl _ hf
  have hall := Server.Reached.never Fault.bodyPhase
    (J := fun p s => (Relay p s ∧ Unread p s) ∧ Plain p s) (by decide)
    (fun w hw hd a ha => Server.Reached.plain rfl hw hd ha)
    (fun s e f hb hj hgood hf => (handleRequest_spared rfl hb hj.1.1 hj.1.2 hj.2 hgood).error f hf)
    (fun p s e f _ _ hf => hnone (by decide) (raises_handleUpstream f hf))
    (fun p s e f _ _ hf => hnone (by decide) (raises_handlePass f hf)) h
  constructor
  · intro hd
    cases hall _ hd
  · intro hd
    cases hall _ hd

/-- A request for a static location that arrives at once. -/
def arrivalRun (request : String) : List Label :=
  Server.opened ++
  [.poll [.conn 0 true false],
    .serveIn (.at 0) { idleEnv with recvs := [.got (bytes request)], resource := fun _ => .file 9 0 }]

/-- A request whose body is there. -/
theorem bodyPhase_safe_whole :
    ∃ v, exec (Server.step (contractConfig 60 [⟨false, bytes "/"⟩])) Server.boot
        (arrivalRun "POST /i.html HTTP/1.1\r\nContent-Length: 3\r\n\r\nabc") = some v ∧ v.BodySafe := by
  have hrun : (exec (Server.step (contractConfig 60 [⟨false, bytes "/"⟩])) Server.boot
      (arrivalRun "POST /i.html HTTP/1.1\r\nContent-Length: 3\r\n\r\nabc")).any
      (fun v => decide (v.dead = none)) := by
    decide +kernel
  obtain ⟨v, hv, -⟩ := exists_of_any hrun
  have hreach := Reach.exec (.start Server.boot_init)
    (show Transition.Along _ (Server.Meets (contractConfig 60 [⟨false, bytes "/"⟩])
      (Carries (contractConfig 60 [⟨false, bytes "/"⟩]))) _
      (arrivalRun "POST /i.html HTTP/1.1\r\nContent-Length: 3\r\n\r\nabc") by decide +kernel) hv
  exact ⟨v, hv, bodyPhase_safe 60 _ hreach⟩

/-- A coding that `sy_header_handle_t_encoding` accepts reaches an `assert(false)`. -/
theorem gzip_aborts :
    ¬ ∀ (timeout : ℤ) (locations : List Location) (v : Server),
      Server.Reached (contractConfig timeout locations) (fun _ _ => True) v → v.BodySafe := by
  intro hall
  have hrun : (exec (Server.step (contractConfig 60 [⟨false, bytes "/"⟩])) Server.boot
      (arrivalRun "GET /i.html HTTP/1.1\r\nTransfer-Encoding: gzip\r\n\r\n")).any
      (fun v => decide (v.dead = some .bodyEncoding)) := by
    decide +kernel
  obtain ⟨v, hv, hend⟩ := exists_of_any hrun
  have hreach := Reach.exec (.start Server.boot_init) (along_true _ _) hv
  exact (hall _ _ v hreach).1 (of_decide_eq_true hend)

end SyServer
