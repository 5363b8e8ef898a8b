import SyServer.AbsentValue
import SyServer.Asserts
import SyServer.OneResponse
import SyServer.Targets

/-! # Every local request is answered

A run that is `Framable` puts no second response behind the first.  A request may still end without
one, where the worker dies under it: `atoi` reads the port of its target, a header line has no value, a
coding is accepted that no code is there for, the body does not come with the headers, or the content
type of a path without an extension is looked up.

`Answerable` excludes these too.  No call for a local request then fails, and once the request is
complete, what the client was sent, what is in `sb` and the rest of the file are one response. -/

namespace SyServer

open Transition (Reach exec exists_of_any)

/-! ### The condition -/

/-- The header lines in `rb` put few pages, and none of them is without a value that is read.  If they
are the last and no page was put, the body is there in the identity encoding, and the path has an
extension. -/
def LinesAnswerable (r : Request) : Prop :=
  FewPages (callLines r).1 r.resourceLen ∧ (∀ l ∈ (callLines r).1, ¬ Dangling l) ∧ Carried r ∧
    (linesEnd (r.rb.size + 1) r = true →
      ((callLines r).1.foldl (fun f l => Framing.line l f) r.framing).page = false →
        r.uri.extension.Readable)

instance (r : Request) : Decidable (LinesAnswerable r) :=
  inferInstanceAs (Decidable (_ ∧ (∀ l ∈ (callLines r).1, ¬ Dangling l) ∧ _ ∧ (_ = _ → _ = _ → _)))

/-- The target of the line in `rb` has no port, its file is not too long, and the header lines behind it
can be answered. -/
def AnswersFrom (cfg : Config) (e : Env) (s : Session) : Prop :=
  (s.r.inHandler = .requestLine → s.r.bodyDone = false →
    (∀ r ∈ lineParsed s.r, r.uri.port.data = .NULL ∧ ∀ x ∈ resourceAsked cfg e r, x.Fits) ∧
      ∀ s' ∈ lineDone cfg e s, s'.r.bodyDone = false → ¬ Proxied s'.log → LinesAnswerable s'.r) ∧
    (s.r.inHandler = .headers → s.r.bodyDone = false → ¬ Proxied s.log → LinesAnswerable s.r)

instance (cfg : Config) (e : Env) (s : Session) : Decidable (AnswersFrom cfg e s) :=
  inferInstanceAs (Decidable ((_ = _ → _ = _ →
    (∀ r ∈ lineParsed s.r, _ = _ ∧ ∀ x ∈ resourceAsked cfg e r, x.Fits) ∧
      ∀ s' ∈ lineDone cfg e s, s'.r.bodyDone = false → ¬ Proxied s'.log → LinesAnswerable _) ∧
    (_ = _ → _ = _ → ¬ Proxied s.log → LinesAnswerable _)))

/-- Each call of `sy_handle_request` that receives something is for a request that can be answered. -/
def Answerable (cfg : Config) (v : View) (ev : SessionEvent) : Prop :=
  Regular v ev ∧ ∀ e, ev = .request e → (v.s.r.rb.recv e.recvs).1 = .again →
    AnswersFrom cfg e (v.s.receive (v.s.r.rb.recv e.recvs).2.2)

instance (cfg : Config) (v : View) : ∀ ev, Decidable (Answerable cfg v ev)
  | .request e =>
      decidable_of_iff (Regular v (.request e) ∧ ((v.s.r.rb.recv e.recvs).1 = .again →
        AnswersFrom cfg e (v.s.receive (v.s.r.rb.recv e.recvs).2.2)))
        ⟨fun h => ⟨h.1, by rintro _ ⟨⟩; exact h.2⟩, fun h => ⟨h.1, h.2 e rfl⟩⟩
  | .response e => decidable_of_iff (Regular v (.response e)) ⟨fun h => ⟨h, by simp⟩, And.left⟩
  | .poll _ | .share _ | .close | .pass _ | .upstream _ => .isTrue ⟨trivial, by simp⟩

section request

variable {cfg : Config} {e : Env} {s s' : Session} {rc : Rc}

theorem AnswersFrom.frames (h : AnswersFrom cfg e s) : FramesFrom cfg e s := by
  refine ⟨fun hin hopen => ?_, fun hin hopen hp => (h.2 hin hopen hp).1⟩
  obtain ⟨hline, hnext⟩ := h.1 hin hopen
  exact ⟨fun r hr => (hline r hr).2, fun s' hs' hd hp => (hnext s' hs' hd hp).1⟩

theorem Answerable.framable {v : View} {ev : SessionEvent} (h : Answerable cfg v ev) : Framable cfg v ev :=
  ⟨h.1, fun e hev hrecv => (h.2 e hev hrecv).frames⟩

/-! ### A local request that waits for more -/

/-- The parser waits for the rest of the line, or for the rest of the headers. -/
structure Waiting (s : Session) : Prop where
  head : s.r.inHandler ≠ .body
  line : s.r.inHandler = .requestLine → Aimed s.r.rb.begin s.r

/-- A session whose local requests have one response each, and in which one that is not complete can go
on. -/
structure Responding (p : Bool) (s : Session) : Prop where
  single : Single p s
  waits : ¬ Proxied s.log → s.r.bodyDone = false → Waiting s

/-- What a call leaves: unless the request is proxied, it returns, and a request that is not complete can
go on. -/
def Survives (x : Except Fault Rc × Session) : Prop :=
  Proxied x.2.log ∨ (∃ rc, x.1 = .ok rc) ∧ (x.2.r.bodyDone = false → Waiting x.2)

theorem Waiting.fresh {s : Session} (r₀ : Request) (c : ConnAddr) (hr : s.r = requestInit r₀ c) :
    Waiting s := by
  refine ⟨by rw [hr]; simp [requestInit], fun _ => ?_⟩
  rw [hr]
  exact .of_before rfl rfl rfl

/-- The computation returns. -/
abbrev Returning {α : Type} (P : α → Prop) (x : Except Fault α) : Prop := Yields (fun _ => False) P x

/-- A page for a request whose `sb` is empty. -/
theorem page_returns {date : List UInt8} (hdate : date.length ≤ DATE_LENGTH) {status : ℕ}
    (hstatus : status ∈ errorStatuses) (hsb : s.r.sb.end_ = 0) :
    Returning (fun p => p.1 = .ok) (responseBuildErr date status s) := by
  obtain ⟨b, h, -⟩ := responseBuildErr_room hstatus (pageRoom_fresh hdate hstatus hsb)
  rw [h]
  rfl

/-! ### The request line -/

theorem Unreplied.known (h : Unreplied s) : s.Known := by
  unfold Session.Known
  rw [h.status]
  decide

/-- Opening an upstream returns. -/
theorem uwsgiOpenConnection_returns (up : Upstream) (h : s.Known) :
    Returning (fun p => p.2.r.sb = s.r.sb) (uwsgiOpenConnection up true s) := by
  have hsure := sure_uwsgiOpenConnection up h
  have hraises := raises_uwsgiOpenConnection up true s
  cases hopen : uwsgiOpenConnection up true s with
  | error f =>
      -- it could fail assertions about what the server itself has set, which hold
      have hown : f.own = false := hsure.error hopen
      have hall : ∀ g ∈ [Fault.passLocation, .heapEmpty], g.own = true := by decide
      exact absurd ((hall f (hraises f hopen)).symm.trans hown) (by simp)
  | ok p =>
      obtain ⟨uc, s₁⟩ := p
      obtain ⟨g, -, ⟨rfl, hs⟩ | ⟨-, rfl⟩⟩ := uwsgiOpenConnection_opened hopen
      · have hsb := congrArg (fun t : Session => t.r.sb) hs
        exact hsb
      · rfl

/-- `sy_request_handle_uri` returns, where the path is in `rb` and no port is read. -/
theorem requestHandleUri_returns (h : Unreplied s) (hdate : e.date.length ≤ DATE_LENGTH)
    (hcounted : PortCounted s.r.uri) (hport : s.r.uri.port.data = .NULL)
    (hpath : ∃ i, s.r.uri.absPath.data = .rb i) :
    Returning (fun p => p.1 = .ok) (requestHandleUri cfg e s) := by
  have hpage : ∀ {t : Session} {status : ℕ}, status ∈ errorStatuses → t.r.sb.end_ = 0 →
      Returning (fun p => p.1 = .ok) (responseBuildErr e.date status t) := page_returns hdate
  obtain ⟨i, hi⟩ := hpath
  have hhost : Returning (fun r => ∃ host port, r = { s.r with host := host, port := port })
      (uriHost s.r) := by
    obtain ⟨r, hr⟩ := (uriHost_ok_iff hcounted).mpr hport
    rw [hr]
    exact uriHost_frame hr
  refine hhost.bind fun r hr => ?_
  obtain ⟨host, port, rfl⟩ := hr
  have hmatch : Returning (fun _ => True) (matchLocation s.r.mem s.r.uri.absPath.data cfg.locations) := by
    rw [hi, matchLocation_rb]
    trivial
  refine hmatch.bind fun loc _ => ?_
  cases loc with
  | none => exact hpage (by decide) h.end_
  | some loc =>
      dsimp only
      split_ifs with hpass
      · rw [hpass]
        refine (uwsgiOpenConnection_returns _ (by exact h.known)).bind fun p hp => ?_
        obtain ⟨uc, s₁⟩ := p
        dsimp only
        split_ifs
        · exact hpage (by decide) ((congrArg Buffer.end_ hp).trans h.end_)
        · rfl
      · have hrel : Returning (fun p => p.1.sb = s.r.sb)
            (relPath { s.r with host := host, port := port }) := by
          unfold relPath
          rw [show ({ s.r with host := host, port := port } : Request).uri.absPath.data = .rb i from hi]
          rfl
        refine hrel.bind fun p hp => ?_
        have hend := (congrArg Buffer.end_ hp).trans h.end_
        obtain ⟨r, path⟩ := p
        dsimp only
        split
        · exact hpage (by decide) hend
        · exact hpage (by decide) hend
        · rfl
        · rfl

/-- `sy_request_handle_request_line` returns; a line that is not over is waited for. -/
theorem requestHandleRequestLine_returns (h : Unreplied s) (hdate : e.date.length ≤ DATE_LENGTH)
    (hb : s.r.rb.begin ≤ s.r.rb.end_) (hin : s.r.inHandler = .requestLine) (hready : LineReady s.r)
    (haim : Aimed s.r.rb.begin s.r) (hport : ∀ r ∈ lineParsed s.r, r.uri.port.data = .NULL) :
    Returning (fun p => p.1 = .ok ∨ Waiting p.2) (requestHandleRequestLine cfg e s) := by
  obtain ⟨rc, r, hp, -⟩ := parseRequestLine_ready hready
  obtain ⟨hagain, hok⟩ := parseRequestLine_aims hb haim hp
  obtain ⟨m, version, st, l, u, k, rfl, -⟩ := parseRequestLine_frame hp
  have hparsed : Unreplied { s with r := { s.r with
      method := m, version := version, state := st, requestLine := l, uri := u
      rb := { s.r.rb with begin := k } } } := { h with }
  unfold requestHandleRequestLine
  rw [hp]
  change Returning _ (ite _ _ _)
  split_ifs with hrc hne hversion
  · refine .inr ⟨?_, fun _ => hagain hrc⟩
    rw [show ({ s with r := _ } : Session).r.inHandler = _ from hin]
    simp
  · exact (page_returns hdate (by decide) hparsed.end_).mono (fun _ h => h) fun _ => .inl
  · exact (page_returns hdate (by decide) hparsed.end_).mono (fun _ h => h) fun _ => .inl
  · obtain rfl : rc = .ok := not_not.mp hne
    obtain ⟨hcounted, hpath⟩ := hok rfl
    have hnull := hport _ (lineParsed_ok hp hversion)
    have hheaders : Unreplied { s with r := { s.r with
        method := m, version := version, state := st, requestLine := l, uri := u
        rb := { s.r.rb with begin := k }
        keepAlive := version.minor = 1, inHandler := .headers } } :=
      { hparsed with line := fun hline => by cases hline }
    exact (requestHandleUri_returns hheaders hdate hcounted hnull hpath).mono (fun _ h => h) fun _ => .inl

/-! ### The headers -/

/-- A rule for the lines that are left, next to a property of each. -/
theorem LineRule.and_all {date : List UInt8} {P : List Request → Session → Prop} {Q : Request → Prop}
    (hP : LineRule date P) : LineRule date fun ls t => P ls t ∧ ∀ l ∈ ls, Q l where
  parse hp h := ⟨hP.parse hp h.1, h.2⟩
  done k h := ⟨hP.done k h.1, h.2⟩
  skip hl hget h := ⟨hP.skip hl hget h.1, (List.forall_mem_cons.mp h.2).2⟩
  run hl hget hrun h := ⟨hP.run hl hget hrun h.1, (List.forall_mem_cons.mp h.2).2⟩

/-- **One call of `sy_request_handle_headers`** returns if each of its processors does. -/
theorem headersLoop_returns {P : List Request → Session → Prop} (hP : LineRule e.date P)
    (hcfg : cfg.headerGet = contractGet)
    (hrun : ∀ {l : Request} {ls : List Request} {t : Session} {v : HeaderVal}, SameParse l t.r →
      contractGet t.r.mem t.r.headerName = some v → P (l :: ls) t →
        Returning (fun _ => True) (v.processor.run e.date v.offset t))
    {n : ℕ} {r : Request} (hsame : SameParse r s.r) (hready : HeaderReady s.r)
    (hs : P (parseLines n r).1 s) : Returning (fun _ => True) (headersLoop cfg e n s) := by
  induction n generalizing s r with
  | zero => trivial
  | succ n ih =>
      obtain ⟨rc, r₁, hp, hready₁⟩ := parseHeaderLine_ready hready
      -- the parser delivers the same line to the call
      have hr : SameParse s.r r := ⟨hsame.rb.symm, hsame.state.symm, hsame.name.symm, hsame.value.symm⟩
      have hto : SameParse (r.onto r₁) r₁ := ⟨rfl, rfl, rfl, rfl⟩
      unfold parseLines at hs
      rw [hr.parse hp] at hs
      have hs₁ := hP.parse hp hs
      rcases parseHeaderLine_cases hp with ⟨rfl, -⟩ | ⟨_, _, r₂, hrc, -⟩
      · unfold headersLoop
        rw [hp]
        trivial
      split_ifs at hrc
      · obtain rfl := hrc
        unfold headersLoop
        rw [hp]
        trivial
      · obtain rfl := hrc
        rw [headersLoop_line hp, hcfg]
        dsimp only at hs₁ ⊢
        cases hget : contractGet r₁.mem r₁.headerName with
        | none => exact ih (s := { s with r := r₁ }) hto hready₁ (hP.skip hto hget hs₁)
        | some v =>
            have hcall := hrun (t := { s with r := r₁ }) hto hget hs₁
            dsimp only
            cases hv : v.processor.run e.date v.offset { s with r := r₁ } with
            | error f => exact (hcall.error hv).elim
            | ok p =>
                obtain ⟨rc, s₁⟩ := p
                obtain ⟨rfl, hsame₁⟩ := Processor.run_same hv
                exact ih (hto.trans hsame₁) (Processor.run_ready hready₁ hv) (hP.run hto hget hv hs₁)

/-- A processor fails for a line without a value, or where its page does not fit. -/
theorem Processor.run_fails {date : List UInt8} {v : HeaderVal} {f : Fault}
    (hv : contractGet s.r.mem s.r.headerName = some v)
    (h : v.processor.run date v.offset s = .error f) :
    Dangling s.r ∨ Rejected s.r ∧ ∃ hs, ∃ status ∈ [400, 415],
      responseBuildErr date status { s with r := { s.r with headers := hs } } = .error f := by
  have hwild : ∀ {α : Type} {x : Except Fault α}, Raises [.wildRead] x → x = .error f → Dangling s.r := by
    intro α x hx hf
    obtain rfl := List.mem_singleton.mp (hx f hf)
    exact (Processor.run_wild_iff hv).mp h
  obtain ⟨-, hte, hcl⟩ := processor_field hv
  rw [rejected_iff]
  cases hp : v.processor with
  | connection =>
      rw [hp] at h
      rcases bind_error h with h1 | ⟨close, -, h2⟩
      · exact .inl (hwild (raises_strncaseEq _ _ _) h1)
      · cases h2
  | tEncoding =>
      rw [hp] at h
      rcases bind_error h with h1 | ⟨te, h1, h2⟩
      · exact .inl (hwild (raises_matchEncoding _ _ _) h1)
      cases te with
      | some te => cases h2
      | none =>
          right
          obtain rfl := hte hp
          exact ⟨.inl ⟨(named_tEncoding hv).mpr rfl, h1⟩, _, 415, by decide, h2⟩
  | contentLength =>
      rw [hp] at h
      rcases bind_error h with h1 | ⟨n, h1, h2⟩
      · exact .inl (hwild (raises_atoi _ _) h1)
      split_ifs at h2 with hneg
      · right
        obtain rfl := hcl hp
        exact ⟨.inr ⟨(named_contentLength hv).mpr rfl, n, hneg, h1⟩, _, 400, by decide, h2⟩
      · cases h2
  | generic | host | accept | ifModifiedSince =>
      rw [hp] at h
      cases h

/-- `sy_request_handle_headers` returns where few pages are put and no value is missed. -/
theorem requestHandleHeaders_returns (hcfg : cfg.headerGet = contractGet) (h : Unreplied s)
    (hdate : DateLine e.date) (hready : HeaderReady s.r)
    (hfew : FewPages (callLines s.r).1 s.r.resourceLen) (hvalues : ∀ l ∈ (callLines s.r).1, ¬ Dangling l) :
    Returning (fun _ => True) (requestHandleHeaders cfg e s) := by
  apply headersLoop_returns (paging_rule hdate).and_all hcfg _ (.refl _) hready ⟨.inl ⟨h, hfew⟩, hvalues⟩
  intro l ls t v hl hget ht
  obtain ⟨hpaging, hvalue⟩ := ht
  have hdangling : Dangling t.r ↔ Dangling l := by
    unfold Dangling
    rw [hl.mem, hl.name, hl.value]
  cases hv : v.processor.run e.date v.offset t with
  | ok p => trivial
  | error f =>
      exfalso
      rcases Processor.run_fails hget hv with hd | ⟨hrej, hs, status, hstatus, hpage⟩
      · exact (List.forall_mem_cons.mp hvalue).1 (hdangling.mp hd)
      · rw [hl.rejected] at hrej
        rcases hpaging with ⟨hu, -⟩ | ⟨-, hnone⟩
        · have hall : ∀ status ∈ [400, 415], status ∈ errorStatuses := by decide
          have hset : Unreplied { t with r := { t.r with headers := hs } } := { hu with }
          exact (page_returns hdate.length (hall status hstatus) hset.end_).error hpage
        · rw [List.countP_cons_of_pos (by simpa using hrej)] at hnone
          cases hnone

/-! ### The body -/

/-- `sy_request_handle_body` puts the head of the file. -/
theorem requestHandleBody_returns (h : Unreplied s) (hdate : e.date.length ≤ DATE_LENGTH)
    (hte : s.r.tEncoding = .identity) (hbody : BodyThere s.r.contentLength s.r.bodyReceived s.r.rb.size)
    (hread : s.r.uri.extension.Readable) :
    Returning (fun p => p.1 = .ok) (requestHandleBody e s) := by
  obtain ⟨n, hr, hrc⟩ := parseRequestBodyIdentity_frame s.r
  obtain ⟨err, r, hp⟩ : ∃ err r, parseRequestBodyIdentity s.r = (err, r) := ⟨_, _, rfl⟩
  rw [hp] at hr hrc
  dsimp only at hr hrc
  subst hr
  obtain rfl : err = .ok := by
    rcases hrc with hok | ⟨hagain, -⟩
    · exact hok
    · exact absurd hbody (parseRequestBodyIdentity_again (hagain ▸ hp))
  have hroom : s.r.sb.end_ + (localText e.date s.r).length < BUF_SIZE := by
    have hlength := localText_length (r := s.r) hdate (by have := h.nonneg; omega) h.lt
    have hend := h.end_
    unfold BUF_SIZE
    omega
  have hbuild : Returning (fun _ => True) (responseBuild e.date { s.r with bodyReceived := n }) := by
    rcases responseBuild_room e.date (r := { s.r with bodyReceived := n }) hroom with
      hstatus | ⟨-, hnot⟩ | ⟨b, fd, hok, -⟩
    · have hown := (sure_responseBuild (r := { s.r with bodyReceived := n }) h.known).error hstatus
      cases hown
    · exact absurd hread hnot
    · rw [hok]
      trivial
  unfold requestHandleBody
  rw [if_neg (not_not.mpr hte), hp]
  dsimp only [bodyRespond]
  rw [if_pos h.uc]
  refine Yields.bind (P := fun _ => True) ?_ fun _ _ => rfl
  exact hbuild.bind fun _ _ => trivial

/-! ### A call of `sy_handle_request` -/

theorem Unreplied.local (h : Unreplied s) : ¬ Proxied s.log := (quiet_parts h.quiet).1

theorem requestLoop_proxied {n : ℕ} (hopen : s.r.bodyDone = false) (hp : Proxied s.log) :
    Survives (requestLoop cfg e n s) := by
  have hlate : ¬ s.Late := fun hl => absurd (hl.1.symm.trans hopen) (by simp)
  have hrun : requestLoop cfg e n s = ((requestLoop cfg e n s).1, (requestLoop cfg e n s).2) := rfl
  exact .inl ((moves_onward (requestLoop_moves hlate (.inl hopen) hrun).1).proxied hp)

/-- A round of the loop with a handler that returns. -/
theorem Survives.round {n : ℕ} {i : InHandler} {P : Rc × Session → Prop} (hin : s.r.inHandler = i)
    (hcall : Returning P (i.run cfg e (s.note (.called i s.r.state))))
    (hwait : ∀ rc s', i.run cfg e (s.note (.called i s.r.state)) = .ok (rc, s') → rc ≠ .ok →
      s'.r.bodyDone = false → Waiting s')
    (hnext : ∀ s', i.run cfg e (s.note (.called i s.r.state)) = .ok (.ok, s') → s'.r.bodyDone = false →
      Survives (requestLoop cfg e n s')) : Survives (requestLoop cfg e (n + 1) s) := by
  subst hin
  apply requestLoop_round
  · exact fun f hf => (hcall.error hf).elim
  · intro rc s' hrun hend
    refine .inr ⟨⟨rc, rfl⟩, fun hd => hwait rc s' hrun (fun hrc => ?_) hd⟩
    exact absurd ((hend hrc).symm.trans hd) (by simp)
  · exact hnext

/-- A call that begins with the body. -/
theorem requestLoop_body_survives {n : ℕ} (hin : s.r.inHandler = .body) (h : Unreplied s)
    (hdate : e.date.length ≤ DATE_LENGTH) (hte : s.r.tEncoding = .identity)
    (hbody : BodyThere s.r.contentLength s.r.bodyReceived s.r.rb.size) (hread : s.r.uri.extension.Readable) :
    Survives (requestLoop cfg e (n + 1) s) := by
  have hnote := h.note (a := .called .body s.r.state) rfl
  have hcall := requestHandleBody_returns (e := e) hnote hdate hte hbody hread
  apply Survives.round hin hcall
  · exact fun rc s' hrun hrc => absurd (hcall.ok hrun) hrc
  · intro s' hrun hd
    have hdone := (requestHandleBody_plain (s := s.note _) hte hrun).2 rfl
    exact absurd (hdone.symm.trans hd) (by simp)

/-- No line has a part in the target. -/
theorem target_fold (date : List UInt8) : LineFold date (fun s => s.r.uri) fun _ u => u where
  parse hp := by
    obtain ⟨_, _, _, _, rfl, -, -⟩ := parseHeaderLine_frame hp
    rfl
  done _ _ := rfl
  same _ := rfl
  skip _ _ := rfl
  run _ h := by
    obtain ⟨-, ⟨_, _, _, _, -, rfl⟩ | ⟨_, _, _, -, rfl⟩⟩ := Processor.run_cases h <;> rfl

/-- A call that begins with the headers. -/
theorem requestLoop_headers_survives {n : ℕ} (hin : s.r.inHandler = .headers)
    (hcfg : cfg.headerGet = contractGet) (hready : HeaderReady s.r) (h : Unreplied s)
    (hdate : DateLine e.date) (hlines : LinesAnswerable s.r) : Survives (requestLoop cfg e (n + 2) s) := by
  obtain ⟨hfew, hvalues, hcarried, hread⟩ := hlines
  have hnote := h.note (a := .called .headers s.r.state) rfl
  apply Survives.round hin (requestHandleHeaders_returns hcfg hnote hdate hready hfew hvalues)
  · intro rc s' hrun hrc _
    have hin' : s'.r.inHandler = .headers :=
      (headersLoop_drained (s := s.note _) (Nat.lt_succ_self _) hrun hrc).2.trans hin
    exact ⟨by rw [hin']; simp, fun hline => by rw [hin'] at hline; cases hline⟩
  · intro s' hrun hd
    obtain ⟨hrb, hframing, huc, -, hreceived, hend⟩ := requestHandleHeaders_lines (s := s.note _) hcfg hrun
    obtain ⟨-, huri, -⟩ := headersLoop_fold (target_fold e.date) hcfg (.refl _) hrun
    rw [List.foldl_fixed] at huri
    -- the headers end in this call, and no line was answered by a page
    have hpage : ((callLines s.r).1.foldl (fun f l => Framing.line l f) s.r.framing).page = false :=
      (congrArg Framing.page hframing).symm.trans hd
    obtain ⟨hte, hbody⟩ := hcarried (hend.mp rfl) hpage
    rcases headersLoop_answered hcfg hnote hdate hfew hrun with hu | ⟨-, hdone, -⟩
    · apply requestLoop_body_survives (headersLoop_ok hrun) hu hdate.length
      · exact (congrArg Framing.encoding hframing).trans hte
      · rw [hreceived, hrb, show s'.r.contentLength = _ from congrArg Framing.length hframing]
        exact hbody.resolve_left (not_not.mpr h.uc)
      · rw [huri]
        exact hread (hend.mp rfl) hpage
    · exact absurd (hdone.symm.trans hd) (by simp)

/-- A call that begins with the request line. -/
theorem requestLoop_line_survives {n : ℕ} (hin : s.r.inHandler = .requestLine)
    (hcfg : cfg.headerGet = contractGet) (hb : Base false s) (h : Unreplied s) (hdate : DateLine e.date)
    (haim : Aimed s.r.rb.begin s.r) (hfrom : AnswersFrom cfg e s) :
    Survives (requestLoop cfg e (n + 3) s) := by
  have hopen := h.bodyDone
  have hready := (hb.fresh hin hopen).1
  obtain ⟨hline, hnext⟩ := hfrom.1 hin hopen
  have hnote := h.note (a := .called .requestLine s.r.state) rfl
  have hcall : Returning _ (requestHandleRequestLine cfg e (s.note (.called .requestLine s.r.state))) :=
    requestHandleRequestLine_returns hnote hdate.length hb.rb hin hready
      ⟨haim.before, haim.within, haim.behind⟩ fun r hr => (hline r hr).1
  have hb' : Base false (s.note (.called .requestLine s.r.state)) := by
    rw [← hin]
    have hlate : ¬ s.Late := fun hl => absurd (hl.1.symm.trans hopen) (by simp)
    exact base_client hb (@ClientMove.called cfg s hlate)
  apply Survives.round hin hcall
  · exact fun rc s' hrun hrc _ => (hcall.ok hrun).resolve_left hrc
  · intro s' hrun hd
    have hin' : s'.r.inHandler = .headers :=
      (requestHandleRequestLine_ok hrun).resolve_left fun hd' => absurd (hd'.symm.trans hd) (by simp)
    rcases requestHandleRequestLine_answered hnote hin hdate (fun r hr => (hline r hr).2) hrun with
      hp | hu | ⟨-, hdone, -⟩
    · exact requestLoop_proxied hd hp
    · have hb'' := base_client hb' (requestHandleRequestLine_move (s := s.note _) hopen hin hrun)
      have hdone : s' ∈ lineDone cfg e s := by
        unfold lineDone
        rw [show requestHandleRequestLine cfg e (s.note (.called .requestLine s.r.state)) = .ok (.ok, s')
          from hrun]
        rfl
      exact requestLoop_headers_survives hin' hcfg (hb''.headers (by rw [hin']; simp)) hu hdate
        (hnext s' hdone hd hu.local)
    · exact absurd (hdone.symm.trans hd) (by simp)

theorem Waiting.receive (h : Waiting s) (d : List UInt8) : Waiting (s.receive d) where
  head := h.head
  line hin := ⟨(h.line hin).before, (h.line hin).within, (h.line hin).behind⟩

/-- **A call of `sy_handle_request` for a local request returns**, if the request can be answered. -/
theorem handleRequest_survives (hcfg : cfg.headerGet = contractGet) (hb : Base true s)
    (h : Responding true s) (hgood : Answerable cfg ⟨true, s⟩ (.request e)) :
    Survives (handleRequest cfg e s) := by
  rcases h.single.state with hp | hu | ⟨hpend, -⟩
  · exact .inl ((handleRequest_onward cfg e hb).proxied hp)
  · have hwaits := h.waits hu.local hu.bodyDone
    obtain ⟨rc, d, hrecv, -, -⟩ := Buffer.recv_spec e.recvs s.r.rb
    have hfrom := hgood.2 e rfl
    unfold handleRequest
    rw [hrecv] at hfrom ⊢
    dsimp only at hfrom ⊢
    split_ifs with hrc
    · exact .inr ⟨⟨_, rfl⟩, fun _ => hwaits.receive d⟩
    have hfrom := hfrom (not_not.mp hrc)
    have hreceived := hu.receive d
    have hb' := base_receive hb d
    change Survives (requestLoop cfg e 3 (s.receive d))
    cases hin : s.r.inHandler with
    | requestLine =>
        exact requestLoop_line_survives hin hcfg hb' hreceived hgood.1 ((hwaits.receive d).line hin) hfrom
    | headers =>
        exact requestLoop_headers_survives hin hcfg
          (hb'.headers (by rw [show (s.receive d).r.inHandler = .headers from hin]; simp)) hreceived hgood.1
          (hfrom.2 hin hu.bodyDone hreceived.local)
    | body =>
        -- a local request is never left behind its headers
        exact absurd hin hwaits.head
  · cases hpend

end request

/-! ### Every run -/

theorem Responding.proxied {p q : Bool} {s s' : Session} (h : Responding p s) (hp : Proxied s.log)
    (hl : Onward s.log s'.log) : Responding q s' :=
  ⟨h.single.proxied hp hl, fun hnot => absurd (hl.proxied hp) hnot⟩

theorem kept_responding (timeout : ℤ) (locations : List Location) :
    Kept (contractConfig timeout locations) (Answerable (contractConfig timeout locations)) Responding where
  share p s g h := ⟨h.single.share g, fun hp hd => ⟨(h.waits hp hd).head, (h.waits hp hd).line⟩⟩
  poll p b s hb hin h := ⟨(kept_single timeout locations).poll p b s hb hin h.single, h.waits⟩
  request s e hb h hgood := by
    refine ⟨(kept_single timeout locations).request s e hb h.single hgood.framable, fun hp hd => ?_⟩
    exact ((handleRequest_survives rfl hb h hgood).resolve_left hp).2 hd
  response p s s' e rc hb h hgood hout hrun := by
    refine ⟨(kept_single timeout locations).response p s s' e rc hb h.single ⟨hgood.1, by simp⟩ hout hrun,
      fun hp hd => ?_⟩
    cases handleResponse_move hb.sb hrun with
    | sent hs hnot =>
        have hlocal : ¬ Proxied s.log := fun h => hp (hs.onward.proxied h)
        have hdone : s.r.bodyDone = true := by
          rcases h.single.state with hp' | hu | ⟨-, -, hdone, -⟩
          · exact absurd hp' hlocal
          · exact absurd (hout.symm.trans hu.evOut) (by simp)
          · exact hdone
        obtain ⟨_, _, _, _, _, _, _, rfl, -⟩ := hs
        exact absurd (hdone.symm.trans hd) (by simp)
    | cleared => exact ⟨InHandler.noConfusion, fun _ => .of_before rfl rfl rfl⟩
  upstream p s s' e h huc hm := h.proxied (h.single.of_upstream huc) hm.onward
  pass p s s' e h huc hm := h.proxied (h.single.of_upstream huc) hm.onward
  close s h huc := by
    have hlog : Onward s.log s.dropUpstream.log := .refl _
    exact h.proxied (h.single.of_upstream huc) hlog

/-! ### One response -/

/-- The rest of the file `f` that is to be sent. -/
def Session.fileRest (s : Session) (f : ℕ → UInt8) : List UInt8 :=
  if s.r.resourceFd ≠ none ∨ s.r.outHandler = .file then
    filePart f (fileSent (current s.log)) (s.r.resourceLen.toNat - fileSent (current s.log))
  else []

/-- For a complete local request there is one response: what the client was sent, what is in `sb` and the
rest of the file, and behind a page no file.  Before the request is complete there is nothing. -/
def Session.Responds (s : Session) : Prop :=
  ¬ Proxied s.log →
    (s.r.bodyDone = true → responses (current s.log) = 1 ∧
      (pages (current s.log) ≠ [] → fileSent (current s.log) = 0 ∧ ∀ f, s.fileRest f = []) ∧
        ∀ f, OneResponse (stream f (current s.log) ++ (s.r.sb.pending ++ s.fileRest f))) ∧
    (s.r.bodyDone = false → responses (current s.log) = 0 ∧ s.r.sb.pending = [] ∧
      ∀ f, stream f (current s.log) = [])

/-- A call of `sy_handle_response` for a local request returns, and one that ends the response has sent
it whole. -/
def Session.SendsWhole (s : Session) : Prop :=
  s.c.evOut = true → ¬ Proxied s.log → ∀ e, FileKept e s → ∃ err s', responseLoop e 2 s = .ok (err, s') ∧
    (s'.r.responseDone = true → Complete (current s'.log))

section state

variable {s : Session} {p : Bool}

theorem Unreplied.responds (h : Unreplied s) : s.Responds := by
  obtain ⟨-, hresponses, -, -, hstream⟩ := quiet_parts h.quiet
  have hpending : s.r.sb.pending = [] := by
    unfold Buffer.pending Buffer.slice
    simp [h.begin, h.end_]
  refine fun _ => ⟨fun hd => ?_, fun _ => ⟨hresponses, hpending, hstream⟩⟩
  exact absurd (h.bodyDone.symm.trans hd) (by simp)

theorem Replied.fileRest {t : List UInt8} {n : ℕ} (h : Replied s t n) (f : ℕ → UInt8) :
    s.fileRest f = filePart f (fileSent (current s.log)) (n - fileSent (current s.log)) := by
  unfold Session.fileRest
  split_ifs with hfile
  · rw [← h.len hfile, Int.toNat_natCast]
  · obtain ⟨hfd, hout⟩ := not_or.mp hfile
    have hbuffer : s.r.outHandler = .buffer := by
      cases ho : s.r.outHandler with
      | buffer => rfl
      | file => exact absurd ho hout
    rw [h.none (not_not.mp hfd) hbuffer, Nat.zero_sub, filePart_zero]

theorem Answered.responds (h : Answered s) : s.Responds := by
  obtain ⟨-, hdone, t, n, hr⟩ := h
  refine fun _ => ⟨fun _ => ⟨hr.one, fun hp => ?_, fun f => ?_⟩, fun hd => ?_⟩
  · have hzero : fileSent (current s.log) = 0 := by
      have := hr.le
      have := hr.paged hp
      omega
    exact ⟨hzero, fun f => by rw [hr.fileRest, hr.paged hp, Nat.zero_sub, filePart_zero]⟩
  · rw [hr.fileRest]
    exact hr.whole f
  · exact absurd (hdone.symm.trans hd) (by simp)

theorem Single.responds (h : Single p s) : s.Responds := by
  rcases h.state with hp | hu | ⟨-, ha⟩
  · exact fun hnot => absurd hp hnot
  · exact hu.responds
  · exact ha.responds

/-- Without an upstream the handlers of the response return. -/
theorem OutHandler.run_returns {e : Env} (huc : s.r.uc = none) :
    Returning (fun p => p.2.r.uc = none) (s.r.outHandler.run e s) := by
  cases hout : s.r.outHandler with
  | buffer =>
      show (sendResponseBuffer e s).2.r.uc = none
      unfold sendResponseBuffer responseBufferSent
      dsimp only
      split_ifs <;> exact huc
  | file =>
      unfold OutHandler.run sendResponseFile
      rw [if_neg (not_not.mpr huc)]
      dsimp only
      split_ifs <;> exact huc

theorem responseLoop_returns {e : Env} {n : ℕ} (huc : s.r.uc = none) :
    Returning (fun p => p.2.r.uc = none) (responseLoop e n s) := by
  induction n generalizing s with
  | zero => exact huc
  | succ n ih =>
      refine (OutHandler.run_returns huc).bind fun p hp => ?_
      dsimp only
      split_ifs
      · exact ih hp
      · exact hp

theorem Single.sendsWhole (h : Single p s) (hb : s.r.sb.begin ≤ s.r.sb.end_) : s.SendsWhole := by
  intro hout hp e hkept
  have huc : s.r.uc = none := by
    by_contra huc
    exact hp (h.of_upstream huc)
  have hreturns := responseLoop_returns (e := e) (n := 2) huc
  cases hloop : responseLoop e 2 s with
  | error f => exact (hreturns.error hloop).elim
  | ok x => exact ⟨x.1, x.2, rfl, (responseLoop_single hb h hout (fun _ => hkept) hloop).2⟩

end state

/-- Each local request of the connection `a` that was complete has one response, and so has the one at
hand, once it is complete. -/
def Responded (v : Server) (a : ConnAddr) : Prop :=
  Finished (v.view a).s.log ∧ (v.view a).s.Responds ∧ (v.view a).s.SendsWhole

/-- **Every local request gets one response**, in a run whose requests can be answered; and the worker
does not die under it. -/
theorem one_response {timeout : ℤ} {locations : List Location} {v : Server}
    (h : Server.Reached (contractConfig timeout locations)
      (Server.Meets (contractConfig timeout locations) (Answerable (contractConfig timeout locations))) v)
    {a : ConnAddr} (ha : v.Front a) :
    Responded v a ∧ ((v.view a).pend = true → ∀ e, Answerable (contractConfig timeout locations) (v.view a)
      (.request e) → Survives (handleRequest (contractConfig timeout locations) e (v.view a).s)) := by
  have hs := Server.Reached.kept (kept_responding timeout locations) (fun w hw => ?_) h a ha
  · have hb := h.sound.base a ha
    refine ⟨⟨hs.single.log, hs.single.responds, hs.single.sendsWhole hb.sb⟩, fun hpend e hgood => ?_⟩
    rw [hpend] at hs hb
    exact handleRequest_survives rfl hb hs ⟨hgood.1, hgood.2⟩
  · obtain ⟨r₀, c, hr⟩ := hw.request
    exact ⟨single_init hw, fun _ _ => .fresh r₀ c hr⟩

/-- All of the response is taken. -/
def fileTaken : Env := { dateEnv with sends := [.sent 2048], files := [.sent 3, .sent 0] }

/-- The call ends the response. -/
def fileDone (v : Server) : Bool :=
  match responseLoop fileTaken 2 (v.view 0).s with
  | .ok (.ok, s) => decide (s.r.responseDone = true ∧ .matched true ∉ current s.log)
  | _ => false

/-- A request with a body of 2 bytes, in two pieces. -/
def piecesRun : List Label :=
  fileRun (bytes "POST /i.html HTTP/1.1\r\nContent-Le") ++
  Server.single 0 0 true { dateEnv with
    recvs := [.got (bytes "ngth: 2\r\n\r\nhi")], resource := fun _ => .file 9 3 }

theorem one_response_pieces :
    ∃ v, exec (Server.step (contractConfig 60 [⟨false, bytes "/"⟩])) Server.boot piecesRun = some v ∧
      ∃ s, responseLoop fileTaken 2 (v.view 0).s = .ok (.ok, s) ∧
        ∀ f, OneResponse (stream f (current s.log)) := by
  have hrun : (exec (Server.step (contractConfig 60 [⟨false, bytes "/"⟩])) Server.boot piecesRun).any
      (fun v => decide (v.Front 0 ∧ (v.view 0).s.c.evOut = true ∧ ¬ Proxied (v.view 0).s.log ∧
        FileKept fileTaken (v.view 0).s) && fileDone v) := by
    decide +kernel
  obtain ⟨v, hv, hend⟩ := exists_of_any hrun
  obtain ⟨hstate, hrest⟩ := Bool.and_eq_true_iff.mp hend
  obtain ⟨hfront, hout, hlocal, hkept⟩ := of_decide_eq_true hstate
  have hreach := Reach.exec (.start Server.boot_init)
    (show Transition.Along _ (Server.Meets (contractConfig 60 [⟨false, bytes "/"⟩])
      (Answerable (contractConfig 60 [⟨false, bytes "/"⟩]))) _ piecesRun by decide +kernel) hv
  obtain ⟨⟨-, -, hsends⟩, -⟩ := one_response hreach hfront
  obtain ⟨err, s, hloop, hwhole⟩ := hsends hout hlocal _ hkept
  unfold fileDone at hrest
  rw [hloop] at hrest
  cases err with
  | ok =>
      obtain ⟨hdone, hmatched⟩ := of_decide_eq_true hrest
      exact ⟨v, hv, s, hloop, (hwhole hdone hmatched).2.2⟩
  | _ => cases hrest

/-- A header line with an encoding that is not known is answered by a page, and the file is sent behind
it. -/
def pagedRun : List Label :=
  fileRun (bytes "GET /i.html HTTP/1.1\r\nTransfer-Encoding: x\r\n\r\n") ++
  Server.single 0 0 false { dateEnv with sends := [.sent 2048], files := [.sent 3] }

/-- The file behind the page. -/
theorem page_then_file :
    ¬ ∀ (timeout : ℤ) (locations : List Location) (v : Server),
      Server.Reached (contractConfig timeout locations)
        (Server.Meets (contractConfig timeout locations) Regular) v →
      ∀ a, v.Front a → Responded v a := by
  intro hall
  have hrun : (exec (Server.step (contractConfig 60 [⟨false, bytes "/"⟩])) Server.boot pagedRun).any
      (fun v => decide (v.Front 0 ∧ ¬ Proxied (v.view 0).s.log ∧ (v.view 0).s.r.bodyDone = true ∧
        pages (current (v.view 0).s.log) ≠ [] ∧ fileSent (current (v.view 0).s.log) = 3)) := by
    decide +kernel
  obtain ⟨v, hv, hend⟩ := exists_of_any hrun
  obtain ⟨hfront, hlocal, hdone, hpage, hfile⟩ := of_decide_eq_true hend
  have hreach := Reach.exec (.start Server.boot_init)
    (show Transition.Along _ (Server.Meets (contractConfig 60 [⟨false, bytes "/"⟩]) Regular) _ pagedRun
      by decide +kernel) hv
  obtain ⟨-, hresponds, -⟩ := hall 60 _ v hreach 0 hfront
  obtain ⟨-, hpaged, -⟩ := (hresponds hlocal).1 hdone
  obtain ⟨hnone, -⟩ := hpaged hpage
  rw [hfile] at hnone
  cases hnone

end SyServer
