import SyServer.Bounds
import SyServer.Replies

/-! # One response to a local request

A call of `sy_handle_request` leaves a local request `Unreplied`, or puts its response: one page, or
the head of a file.  Behind a page among the headers the loop goes on, and `FewPages` says that no
other page follows.  In a run that is `Framable` every session is `Single` (`kept_single`): its local
requests have one response at most. -/

namespace SyServer

section request

variable {cfg : Config} {e : Env} {s s' : Session} {rc : Rc}

/-! ### A response is put -/

/-- An action of the request before its response. -/
theorem Unreplied.note (h : Unreplied s) {a : Action} (ha : a.quiet = true) : Unreplied (s.note a) :=
  { h with quiet := a.quiet_current ha h.quiet }

theorem Unreplied.receive (h : Unreplied s) (d : List UInt8) : Unreplied (s.receive d) :=
  { h with quiet := Action.quiet_current rfl h.quiet }

/-- The text of the response is put into `sb`, which is empty. -/
theorem Unreplied.reply (h : Unreplied s) {t : List UInt8} {n : ℕ} {a : Action}
    (ha : (∃ d, a = .built d) ∨ (∃ status d, a = .page status d) ∧ n = 0) (hlog : s'.log = a :: s.log)
    (huc : s'.r.uc = none) (hwrote : Wrote s.r.sb t s'.r.sb) (hout : s'.r.outHandler = .buffer)
    (hdone : s'.r.responseDone = false) (hlen : s'.r.resourceFd ≠ none → n = s'.r.resourceLen)
    (hnone : s'.r.resourceFd = none → n = 0) (htext : ∃ h body, t = h ++ body ∧ IsHead h (body.length + n)) :
    Replied s' t n := by
  obtain ⟨-, hresponses, hpages, hfile, hstream⟩ := quiet_parts h.quiet
  have hcur : current s'.log = a :: current s.log := by
    rw [hlog]
    rcases ha with ⟨_, rfl⟩ | ⟨⟨_, _, rfl⟩, -⟩ <;> rfl
  have hsent : fileSent (current s'.log) = 0 := by
    rw [hcur]
    rcases ha with ⟨_, rfl⟩ | ⟨⟨_, _, rfl⟩, -⟩ <;> exact hfile
  have hpending : s'.r.sb.pending = t := by
    have ht := hwrote.text
    rw [h.end_] at ht
    unfold Buffer.pending
    rw [hwrote.begin, h.begin]
    exact ht
  have hbuffer : s'.r.outHandler ≠ .file := by simp [hout]
  exact {
    text := htext
    uc := huc
    one := by
      rw [hcur]
      rcases ha with ⟨_, rfl⟩ | ⟨⟨_, _, rfl⟩, -⟩ <;> simp [responses, hresponses]
    paged := fun hp => by
      rcases ha with ⟨_, rfl⟩ | ⟨-, hn⟩
      · rw [hcur] at hp
        exact absurd hpages hp
      · exact hn
    sent := fun f => by
      have hnothing : stream f (current s'.log) = [] := by
        rw [hcur]
        rcases ha with ⟨_, rfl⟩ | ⟨⟨_, _, rfl⟩, -⟩ <;> exact hstream f
      simp [hnothing, hsent, hpending]
    order := fun hfile => absurd hfile hbuffer
    le := by simp [hsent]
    len := fun h => hlen (h.resolve_right hbuffer)
    none := fun hfd _ => hnone hfd
    done := fun hd => by simp [hdone] at hd }

/-- A page, where no file is to follow. -/
theorem Unreplied.page (h : Unreplied s) {date : List UInt8} (hdate : DateLine date) {status : ℕ}
    (hstatus : status ∈ errorStatuses) (hlen : s.r.resourceLen = 0)
    (hrun : responseBuildErr date status s = .ok (rc, s')) : Answered s' := by
  have hpage := pageText_length hdate.length hstatus s.r.version.minor
  have htail := errPageTail_length
  have hend := h.end_
  have hroom : s.r.sb.end_ + (pageText date s.r.version.minor status).length < BUF_SIZE := by
    unfold BUF_SIZE
    omega
  obtain ⟨b, hok, hwrote⟩ := responseBuildErr_room hstatus hroom
  rw [hok] at hrun
  cases hrun
  rw [List.take_of_length_le (by unfold BUF_SIZE; omega)] at hwrote
  refine ⟨rfl, rfl, _, 0, h.reply (.inr ⟨⟨_, _, rfl⟩, rfl⟩) rfl h.uc hwrote h.out h.done ?_ ?_ ?_⟩
  · exact fun _ => hlen.symm
  · exact fun _ => rfl
  · obtain ⟨head, htext, hhead⟩ := pageText_head hdate s.r.version.minor status
    exact ⟨head, _, htext, hhead⟩

/-- The head of a file. -/
theorem Unreplied.built (h : Unreplied s) (hdate : DateLine e.date) {s₁ : Session}
    (hev : s.c.evIn = false) (hrun : bodyRespond e s = .ok s₁) :
    Answered { s₁ with r := { s₁.r with bodyDone := true, inHandler := .requestLine } } := by
  have hlength := localText_length (r := s.r) hdate.length (by have := h.nonneg; omega) h.lt
  have hend := h.end_
  have hroom : s.r.sb.end_ + (localText e.date s.r).length < BUF_SIZE := by
    unfold BUF_SIZE
    omega
  unfold bodyRespond at hrun
  rw [if_pos h.uc] at hrun
  obtain ⟨r, h1, h2⟩ := bind_ok hrun
  cases h2
  obtain ⟨b, fd, hr, -, hfd⟩ := responseBuild_spec h1
  rw [if_neg (by simp [h.status])] at hfd
  have hbuild := responseBuild_room e.date hroom
  rw [h1, hr] at hbuild
  rcases hbuild with habs | ⟨habs, -⟩ | ⟨b', fd', heq, hwrote⟩
  · cases habs
  · cases habs
  · have hb : b = b' := congrArg Request.sb (Except.ok.inj heq)
    rw [← hb, List.take_of_length_le (by rw [show (bytes CRLF).length = 2 from rfl]; unfold BUF_SIZE; omega)]
      at hwrote
    subst hr
    subst hfd
    have hnat : ((s.r.resourceLen.toNat : ℕ) : ℤ) = s.r.resourceLen := Int.toNat_of_nonneg h.nonneg
    refine ⟨hev, rfl, _, s.r.resourceLen.toNat, h.reply (.inl ⟨_, rfl⟩) rfl h.uc hwrote h.out h.done ?_ ?_ ?_⟩
    · exact fun _ => hnat
    · intro hnone
      rw [h.file hnone]
      rfl
    · exact ⟨_, [], (List.append_nil _).symm, by simpa using localText_head hdate h.status hnat.symm⟩

/-! ### The handlers -/

theorem requestHandleBody_answered (h : Unreplied s) (hdate : DateLine e.date)
    (hrun : requestHandleBody e s = .ok (rc, s')) : Answered s' := by
  obtain ⟨n, hr, hrc⟩ := parseRequestBodyIdentity_frame s.r
  obtain ⟨err, r, hp⟩ : ∃ err r, parseRequestBodyIdentity s.r = (err, r) := ⟨_, _, rfl⟩
  rw [hp] at hr hrc
  dsimp only at hr hrc
  subst hr
  unfold requestHandleBody at hrun
  split_ifs at hrun
  rw [hp] at hrun
  rcases hrc with rfl | ⟨rfl, -⟩
  · obtain ⟨s₁, h1, h2⟩ := bind_ok hrun
    cases h2
    have hbody : Unreplied { s with r := { s.r with bodyReceived := n }, c := disableIn s.c } := { h with }
    exact hbody.built hdate rfl h1
  · -- without an upstream the call fails
    obtain ⟨s₁, h1, -⟩ := bind_ok hrun
    exact absurd h.uc (enableUpstreamOut_ok h1).1

theorem FewPages.skip {l : Request} {ls : List Request} {len : ℤ} (h : FewPages (l :: ls) len)
    (hl : ¬ Rejected l) : FewPages ls len := by
  unfold FewPages at h ⊢
  rwa [List.countP_cons_of_neg (by simpa using hl)] at h

theorem FewPages.page {l : Request} {ls : List Request} {len : ℤ} (h : FewPages (l :: ls) len)
    (hl : Rejected l) : len = 0 ∧ ls.countP (fun l => decide (Rejected l)) = 0 := by
  unfold FewPages at h
  rw [List.countP_cons_of_pos (by simpa using hl)] at h
  omega

/-- The lines that are left put few pages, or there is a page and they put none. -/
def Paging (ls : List Request) (t : Session) : Prop :=
  Unreplied t ∧ FewPages ls t.r.resourceLen ∨
    Answered t ∧ ls.countP (fun l => decide (Rejected l)) = 0

/-- The first line that is rejected is answered by a page, and none follows. -/
theorem paging_rule {date : List UInt8} (hdate : DateLine date) : LineRule date Paging := by
  constructor
  · intro ls t rc r hp ht
    obtain ⟨_, _, _, _, rfl, -, -⟩ := parseHeaderLine_frame hp
    rcases ht with ⟨hu, hls⟩ | ⟨⟨hev, hd, w, k, hr⟩, hls⟩
    · exact .inl ⟨{ hu with }, hls⟩
    · exact .inr ⟨⟨hev, hd, w, k, { hr with }⟩, hls⟩
  · rintro t k (⟨hu, hls⟩ | ⟨⟨hev, hd, w, n, hr⟩, hls⟩)
    · have hbody : Unreplied { t with r := { t.r with inHandler := .body } } :=
        { hu with line := fun hline => by cases hline }
      exact .inl ⟨hbody.note rfl, hls⟩
    · exact .inr ⟨⟨hev, hd, w, n, { hr with }⟩, hls⟩
  · intro l ls t hl hget ht
    have hnot : ¬ Rejected l := fun hrej => not_rejected hget (hl.rejected.mpr hrej)
    rcases ht with ⟨hu, hls⟩ | ⟨ha, hls⟩
    · exact .inl ⟨hu, hls.skip hnot⟩
    · rw [List.countP_cons_of_neg (by simpa using hnot)] at hls
      exact .inr ⟨ha, hls⟩
  · intro l ls t t' v hl hget hline ht
    rcases Processor.run_line hget hline with ⟨hnot, hs, k, -, rfl⟩ | ⟨hrej, hs, status, hstatus, hpage⟩
    · rw [hl.rejected] at hnot
      rcases ht with ⟨hu, hls⟩ | ⟨⟨hev, hd, w, n, hr⟩, hls⟩
      · exact .inl ⟨{ hu with }, hls.skip hnot⟩
      · rw [List.countP_cons_of_neg (by simpa using hnot)] at hls
        exact .inr ⟨⟨hev, hd, w, n, { hr with }⟩, hls⟩
    · rw [hl.rejected] at hrej
      rcases ht with ⟨hu, hls⟩ | ⟨-, hls⟩
      · obtain ⟨hzero, hnone⟩ := hls.page hrej
        have hset : Unreplied { t with r := { t.r with headers := hs } } := { hu with }
        have hall : ∀ status ∈ [400, 415], status ∈ errorStatuses := by decide
        exact .inr ⟨hset.page hdate (hall status hstatus) hzero hpage, hnone⟩
      · -- no line is left that could put a second page
        rw [List.countP_cons_of_pos (by simpa using hrej)] at hls
        cases hls

theorem headersLoop_answered {n : ℕ} (hcfg : cfg.headerGet = contractGet) (h : Unreplied s)
    (hdate : DateLine e.date) (hfew : FewPages (parseLines n s.r).1 s.r.resourceLen)
    (hrun : headersLoop cfg e n s = .ok (rc, s')) :
    Unreplied s' ∨ Answered s' := by
  have hend := headersLoop_lines (paging_rule hdate) hcfg (.refl _) (.inl ⟨h, hfew⟩) hrun
  rcases hend.2.1 with ⟨hu, -⟩ | ⟨ha, -⟩
  · exact .inl hu
  · exact .inr ha

theorem SizeFits.wrap {size : ℤ} (h : SizeFits size) : 0 ≤ wrap32 size := by
  obtain ⟨hnonneg, hlt | hzero⟩ := h
  · unfold wrap32
    rw [Int.bmod_eq_of_le_mul_two (by omega) (by omega)]
    exact hnonneg
  · exact hzero.ge

/-- A file is opened. -/
theorem Unreplied.found (h : Unreplied s) {g : Shared} {fd : ℕ} {size : ℤ}
    (hin : s.r.inHandler = .headers) (hsize : SizeFits size) :
    Unreplied ({ s with r := s.r.setResource fd size, g := g }.note (.matched false)) := by
  have hfound : Unreplied { s with r := s.r.setResource fd size, g := g } :=
    { h with
      file := fun hnone => by cases hnone
      line := fun hline => absurd (hin.symm.trans hline) (by simp)
      nonneg := hsize.wrap
      lt := (wrap32_range size).2 }
  exact hfound.note rfl

/-- The host has no part in the path. -/
theorem relPath_host {r r' : Request} {path : List UInt8} {host : Str} {port : ℤ}
    (h : relPath { r with host := host, port := port } = .ok (r', path)) :
    ∃ r₁, relPath r = .ok (r₁, path) := by
  unfold relPath at h ⊢
  dsimp only at h
  cases hd : r.uri.absPath.data <;> rw [hd] at h <;> cases h
  exact ⟨_, rfl⟩

/-- What `sy_request_handle_uri` does with what the kernel answers. -/
def resourceOpened (date : List UInt8) (s : Session) : Resource → Except Fault (Rc × Session)
  | .missing => responseBuildErr date 404 s
  | .directory dir none => responseBuildErr date 403 { s with g := (s.g.openFd dir).closeFd dir }
  | .directory dir (some (fd, size)) =>
      let uri := { s.r.uri with extension := htmlExtension }
      let g := ((s.g.openFd dir).openFd fd).closeFd dir
      .ok (.ok, { s with r := { s.r with uri := uri }.setResource fd size, g := g })
  | .file fd size => .ok (.ok, { s with r := s.r.setResource fd size, g := s.g.openFd fd })

/-- **The outcomes of `sy_request_handle_uri`**: no location, one that is proxied, or an answer of the
kernel. -/
theorem requestHandleUri_outcome (hrun : requestHandleUri cfg e s = .ok (rc, s')) :
    resourceAsked cfg e s.r = none ∧ ((∃ host port,
      responseBuildErr e.date 404 { s with r := { s.r with host := host, port := port } } = .ok (rc, s')) ∨
        Proxied s'.log) ∨
    ∃ host port i x, resourceAsked cfg e s.r = some x ∧ resourceOpened e.date (Session.note
      { s with r := { s.r with host := host, port := port, rb := s.r.rb.write i 0 } } (.matched false)) x =
        .ok (rc, s') := by
  obtain ⟨r, h1, h2⟩ := bind_ok hrun
  obtain ⟨host, port, rfl⟩ := uriHost_frame h1
  obtain ⟨loc, hloc, h3⟩ := bind_ok h2
  change matchLocation s.r.mem s.r.uri.absPath.data cfg.locations = .ok loc at hloc
  unfold resourceAsked
  rw [hloc]
  cases loc with
  | none => exact .inl ⟨rfl, .inl ⟨host, port, h3⟩⟩
  | some loc =>
      dsimp only at h3
      by_cases hpass : loc.pass = true
      · left
        refine ⟨?_, .inr ?_⟩
        · cases hp : relPath s.r with
          | error f => rfl
          | ok q => exact if_pos hpass
        · rw [if_pos hpass, hpass] at h3
          obtain ⟨⟨uc, s₁⟩, h4, h5⟩ := bind_ok h3
          obtain ⟨g, hg, ⟨rfl, hs⟩ | ⟨hne, rfl⟩⟩ := uwsgiOpenConnection_opened h4
          · dsimp only at h5
            rw [if_pos rfl, hs] at h5
            obtain ⟨-, b, hb, rfl⟩ := responseBuildErr_spec h5
            exact List.mem_cons_of_mem _ List.mem_cons_self
          · cases uc with
            | none => exact absurd rfl hne
            | some a =>
                cases h5
                exact List.mem_cons_self
      · right
        rw [if_neg hpass, Bool.eq_false_of_not_eq_true hpass] at h3
        obtain ⟨⟨r, path⟩, h4, h5⟩ := bind_ok h3
        obtain ⟨r₁, hpath⟩ := relPath_host h4
        obtain ⟨i, rfl⟩ := relPath_frame h4
        rw [hpath]
        refine ⟨host, port, i, _, if_neg hpass, ?_⟩
        dsimp only [Session.note] at h5
        cases hres : e.resource path with
        | missing | file => rw [hres] at h5; exact h5
        | directory dir index => rw [hres] at h5; cases index <;> exact h5

theorem requestHandleUri_answered (h : Unreplied s) (hfd : s.r.resourceFd = none)
    (hin : s.r.inHandler = .headers) (hdate : DateLine e.date)
    (hfits : ∀ x ∈ resourceAsked cfg e s.r, x.Fits) (hrun : requestHandleUri cfg e s = .ok (rc, s')) :
    Proxied s'.log ∨ Unreplied s' ∨ Answered s' := by
  have hlen := h.file hfd
  rcases requestHandleUri_outcome hrun with
    ⟨-, ⟨host, port, hpage⟩ | hproxied⟩ | ⟨host, port, i, x, hasked, hopened⟩
  · have hhost : Unreplied { s with r := { s.r with host := host, port := port } } := { h with }
    exact .inr (.inr (hhost.page hdate (by decide) hlen hpage))
  · exact .inl hproxied
  · right
    have hx : x.Fits := hfits _ hasked
    have hpath : Unreplied { s with
        r := { s.r with host := host, port := port, rb := s.r.rb.write i 0 } } := { h with }
    cases x with
    | missing => exact .inr ((hpath.note rfl).page hdate (by decide) hlen hopened)
    | file fd size =>
        cases hopened
        exact .inl (hpath.found hin hx)
    | directory dir index =>
        cases index with
        | none =>
            have hdir : Unreplied { s with
                r := { s.r with host := host, port := port, rb := s.r.rb.write i 0 }
                g := (s.g.openFd dir).closeFd dir } := { h with }
            exact .inr ((hdir.note rfl).page hdate (by decide) hlen hopened)
        | some p =>
            cases hopened
            have hindex : Unreplied { s with r := { s.r with
                host := host, port := port, rb := s.r.rb.write i 0
                uri := { s.r.uri with extension := htmlExtension } } } := { h with }
            exact .inl (hindex.found hin hx)

theorem resourceAsked_headers (cfg : Config) (e : Env) (r : Request) (k : Bool) :
    resourceAsked cfg e { r with keepAlive := k, inHandler := .headers } = resourceAsked cfg e r := by
  unfold resourceAsked relPath
  dsimp only
  rw [show ({ r with keepAlive := k, inHandler := .headers } : Request).mem = r.mem from rfl]
  cases matchLocation r.mem r.uri.absPath.data cfg.locations with
  | error f => rfl
  | ok loc => cases loc <;> cases r.uri.absPath.data <;> rfl

theorem requestHandleRequestLine_answered (h : Unreplied s) (hin : s.r.inHandler = .requestLine)
    (hdate : DateLine e.date) (hfits : ∀ r ∈ lineParsed s.r, ∀ x ∈ resourceAsked cfg e r, x.Fits)
    (hrun : requestHandleRequestLine cfg e s = .ok (rc, s')) :
    Proxied s'.log ∨ Unreplied s' ∨ Answered s' := by
  have hfd := h.line hin
  have hlen := h.file hfd
  obtain ⟨⟨err, r⟩, hp, h2⟩ := bind_ok hrun
  obtain ⟨m, version, st, l, u, k, rfl, -⟩ := parseRequestLine_frame hp
  have hparsed : Unreplied { s with r := { s.r with
      method := m, version := version, state := st, requestLine := l, uri := u
      rb := { s.r.rb with begin := k } } } := { h with }
  dsimp only at h2
  split_ifs at h2 with hagain hok hversion
  · cases h2
    exact .inr (.inl hparsed)
  · exact .inr (.inr (hparsed.page hdate (by decide) hlen h2))
  · exact .inr (.inr (hparsed.page hdate (by decide) hlen h2))
  · have hline := hfits _ (lineParsed_ok (not_not.mp hok ▸ hp) hversion)
    have hheaders : Unreplied { s with r := { s.r with
        method := m, version := version, state := st, requestLine := l, uri := u
        rb := { s.r.rb with begin := k }
        keepAlive := version.minor = 1, inHandler := .headers } } :=
      { hparsed with line := fun hline => by cases hline }
    refine requestHandleUri_answered hheaders hfd rfl hdate (fun x hx => ?_) h2
    rw [← resourceAsked_headers cfg e _ (version.minor = 1)] at hline
    exact hline x hx

/-! ### A call of `sy_handle_request` -/

theorem Single.unreplied {p : Bool} (h : Single p s) (hopen : s.r.bodyDone = false) :
    Proxied s.log ∨ Unreplied s := by
  rcases h.state with hp | hu | ⟨-, -, hd, -⟩
  · exact .inl hp
  · exact .inr hu
  · rw [hopen] at hd
    cases hd

/-- One handler of the loop. -/
theorem InHandler.run_single (hcfg : cfg.headerGet = contractGet) (hopen : s.r.bodyDone = false)
    (h : Single false s) (hdate : DateLine e.date) (hframes : FramesFrom cfg e s)
    (hrun : s.r.inHandler.run cfg e (s.note (.called s.r.inHandler s.r.state)) = .ok (rc, s')) :
    Single false s' := by
  have hlate : ¬ (s.note (.called s.r.inHandler s.r.state)).Late := fun hl => by
    have := hopen.symm.trans hl.1
    cases this
  have hmoves := InHandler.run_moves hlate (fun hb => ⟨s.r.state, s.log, by rw [← hb]; rfl, .inl hopen⟩) hrun
  have hon : Onward s.log s'.log := (Onward.single _ (by simp)).trans (moves_onward hmoves)
  rcases h.unreplied hopen with hp | hu
  · exact h.proxied hp hon
  · refine ⟨hon.finished h.log, ?_⟩
    have hnote := hu.note (a := .called s.r.inHandler s.r.state) rfl
    rcases Classical.em (Proxied s.log) with hp | hp
    · exact .inl (hon.proxied hp)
    · have hstate : Proxied s'.log ∨ Unreplied s' ∨ Answered s' := by
        cases hin : s.r.inHandler <;> rw [hin] at hrun hnote
        case requestLine =>
            exact requestHandleRequestLine_answered hnote hin hdate (hframes.1 hin hopen).1 hrun
        case headers =>
            exact .inr (headersLoop_answered hcfg hnote hdate (hframes.2 hin hopen hp) hrun)
        case body => exact .inr (.inr (requestHandleBody_answered hnote hdate hrun))
      exact hstate.imp_right (·.imp_right fun ha => ⟨rfl, ha⟩)

/-- The condition on the lines of the next handler. -/
theorem framesFrom_next (hframes : FramesFrom cfg e s) (hopen : s.r.bodyDone = false)
    (hrun : s.r.inHandler.run cfg e (s.note (.called s.r.inHandler s.r.state)) = .ok (.ok, s'))
    (hd : s'.r.bodyDone = false) : FramesFrom cfg e s' := by
  have hrank := InHandler.run_rank (s := s.note (.called s.r.inHandler s.r.state)) hrun hd
  change s'.r.inHandler.rank < s.r.inHandler.rank at hrank
  constructor
  · intro hin
    rw [hin] at hrank
    exact absurd hrank (by cases s.r.inHandler <;> decide)
  · intro hin _ hp
    rw [hin] at hrank
    have hfirst : s.r.inHandler = .requestLine := by
      cases hs : s.r.inHandler with
      | requestLine => rfl
      | headers => rw [hs] at hrank; exact absurd hrank (by decide)
      | body => rw [hs] at hrank; exact absurd hrank (by decide)
    rw [hfirst] at hrun
    refine (hframes.1 hfirst hopen).2 s' ?_ hd hp
    unfold lineDone
    rw [show requestHandleRequestLine cfg e (s.note (.called .requestLine s.r.state)) = .ok (.ok, s')
      from hrun]
    rfl

/-- The loop of `sy_handle_request`. -/
theorem requestLoop_single {n : ℕ} (hcfg : cfg.headerGet = contractGet) (hopen : s.r.bodyDone = false)
    (h : Single false s) (hdate : DateLine e.date) (hframes : FramesFrom cfg e s) :
    Single false (requestLoop cfg e n s).2 := by
  induction n generalizing s with
  | zero => exact h
  | succ n ih =>
      refine requestLoop_round (P := fun x => Single false x.2) ?_ ?_ ?_
      · intro f _
        rcases h.unreplied hopen with hp | hu
        · exact h.proxied hp (.single _ (by simp))
        · exact ⟨(Onward.single _ (by simp)).finished h.log, .inr (.inl (hu.note rfl))⟩
      · exact fun rc s' hrun _ => InHandler.run_single hcfg hopen h hdate hframes hrun
      · intro s' hrun hd
        exact ih hd (InHandler.run_single hcfg hopen h hdate hframes hrun)
          (framesFrom_next hframes hopen hrun hd)

theorem handleRequest_single (hcfg : cfg.headerGet = contractGet) (hb : Base true s) (h : Single true s)
    (hgood : Framable cfg ⟨true, s⟩ (.request e)) : Single false (handleRequest cfg e s).2 := by
  have hon := handleRequest_onward cfg e hb
  rcases h.state with hp | hu | ⟨hpend, -⟩
  · exact h.proxied hp hon
  · obtain ⟨rc, d, hrecv, -, -⟩ := Buffer.recv_spec e.recvs s.r.rb
    have hframes := hgood.2 e rfl
    have hreceived : Single false (s.receive d) :=
      ⟨(Onward.single _ (by simp)).finished h.log, .inr (.inl (hu.receive d))⟩
    unfold handleRequest
    rw [hrecv] at hframes ⊢
    dsimp only at hframes ⊢
    split_ifs with hrc
    · exact hreceived
    · exact requestLoop_single hcfg hu.bodyDone hreceived hgood.1 (hframes (not_not.mp hrc))
  · cases hpend

end request

/-! ### Every run -/

theorem Single.share {p : Bool} {s : Session} (h : Single p s) (g : Shared) : Single p (s.share g) := by
  refine ⟨h.log, ?_⟩
  rcases h.state with hp | hu | ⟨hpend, hev, hd, t, n, hr⟩
  · exact .inl hp
  · exact .inr (.inl { hu with })
  · exact .inr (.inr ⟨hpend, hev, hd, t, n, { hr with }⟩)

/-- A request with an upstream is proxied. -/
theorem Single.of_upstream {p : Bool} {s : Session} (h : Single p s) (huc : s.r.uc ≠ none) :
    Proxied s.log := by
  rcases h.state with hp | hu | ⟨-, -, -, t, n, hr⟩
  · exact hp
  · exact absurd hu.uc huc
  · exact absurd hr.uc huc

theorem kept_single (timeout : ℤ) (locations : List Location) :
    Kept (contractConfig timeout locations) (Framable (contractConfig timeout locations)) Single where
  share p s g h := h.share g
  poll p b s _ hin h := by
    refine ⟨h.log, h.state.imp_right (·.imp_right fun ⟨hpend, ha⟩ => ⟨?_, ha⟩)⟩
    apply Bool.eq_false_of_not_eq_true
    intro hb
    exact absurd ((hin hb).symm.trans ha.1) (by simp)
  request s e hb h hgood := handleRequest_single rfl hb h hgood
  response p s s' e rc hb h hgood hout hrun := handleResponse_single hb h hout hgood.1 hrun
  upstream p s s' e h huc hm := h.proxied (h.of_upstream huc) hm.onward
  pass p s s' e h huc hm := h.proxied (h.of_upstream huc) hm.onward
  close s h huc := by
    have hlog : Onward s.log s.dropUpstream.log := .refl _
    exact h.proxied (h.of_upstream huc) hlog

theorem single_init {w : View} (h : w.Init) : Single w.pend w.s := by
  have hcurrent : current w.s.log = [] := by rw [h.log]; rfl
  obtain ⟨r₀, c, hr⟩ := h.request
  exact ⟨by rw [h.log]; trivial, .inr (.inl (.fresh hcurrent r₀ c hr h.evOut))⟩

/-- The date of the C locale. -/
def dateEnv : Env := { idleEnv with date := bytes "Date: Thu, 01 Jan 1970 00:00:00 GMT\r\n" }

/-- A file of 3 bytes is asked for. -/
def fileRun (d : List UInt8) : List Label :=
  Server.opened ++
  Server.single 0 0 true { dateEnv with recvs := [.got d], resource := fun _ => .file 9 3 }

end SyServer
