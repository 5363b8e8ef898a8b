import SyServer.Behind
import SyServer.Bounds

/-! # Requests that arrive in pieces

TCP cuts the text of a request where it likes, and `sy_handle_request` is called for each piece.  A call
that runs out of bytes answers `AGAIN`; by then it may have chosen a location, opened a file or an upstream
connection, and read some of the header lines.  None of this depends on the cuts.

* `outcome`: a call up to the log, which is no part of the server, and up to `rb.begin`, which a refused
  line leaves where it was.
* `Awaits`: a session that has read a text and asks for more; `Awaits.piece` is one more piece.
* `Fed`, `Fed.coalesces`: the pieces so far.
* `cuts_agree`: two cuts of the same bytes. -/

namespace SyServer

variable {cfg : Config} {e e' : Env} {s s' s₁ : Session} {r r' r₀ : Request} {a : ConnAddr}
  {d d' t : List UInt8}

/-! ### What a call of `sy_handle_request` comes to -/

/-- Without the log, and without `rb.begin`. -/
def Session.quiet (s : Session) : Session := { s with r := s.r.mapRb forgetBegin, log := [] }

/-- The fault, or the answer and the session. -/
def outcome (x : Except Fault Rc × Session) : Except Fault (Rc × Session) :=
  x.1.map fun rc => (rc, x.2.quiet)

/-- The rest of the loop behind a handler. -/
def goOn (cfg : Config) (e : Env) (n : ℕ) (p : Rc × Session) : Except Fault (Rc × Session) :=
  if p.1 = .ok ∧ p.2.r.bodyDone = false then outcome (requestLoop cfg e n p.2) else .ok (p.1, p.2.quiet)

theorem outcome_logged (n : ℕ) (s : Session) (l : List Action) :
    outcome (requestLoop cfg e n (s.varied id l)) = outcome (requestLoop cfg e n s) := by
  rw [requestLoop_logged]
  rfl

/-- Without the log. -/
def Session.unlogged (s : Session) : Session := { s with log := [] }

theorem outcome_congr {n : ℕ} (h : s.unlogged = s'.unlogged) :
    outcome (requestLoop cfg e n s) = outcome (requestLoop cfg e n s') := by
  have hlog : ∀ x : Session, outcome (requestLoop cfg e n x) = outcome (requestLoop cfg e n x.unlogged) :=
    fun x => outcome_logged n x.unlogged x.log
  rw [hlog s, hlog s', h]

theorem goOn_logged {n : ℕ} {x y : Except Fault (Rc × Session)} {l : List Action}
    (h : Under (.varied id l) x y) : y >>= goOn cfg e n = x >>= goOn cfg e n := by
  cases h with
  | error g => rfl
  | ok rc s =>
      show goOn cfg e n (rc, s.varied id l) = goOn cfg e n (rc, s)
      unfold goOn
      dsimp only
      rw [outcome_logged]
      rfl

/-- A round of the loop. -/
theorem outcome_succ (n : ℕ) (s : Session) :
    outcome (requestLoop cfg e (n + 1) s) = s.r.inHandler.run cfg e s >>= goOn cfg e n := by
  have hnote : ∀ x : Session, s.unlogged = x.unlogged →
      s.r.inHandler.run cfg e x >>= goOn cfg e n = s.r.inHandler.run cfg e s >>= goOn cfg e n := by
    intro x hx
    have hlog : ∀ y : Session, s.r.inHandler.run cfg e y >>= goOn cfg e n =
        s.r.inHandler.run cfg e y.unlogged >>= goOn cfg e n :=
      fun y => goOn_logged (@InHandler.run_logged cfg e y.log s.r.inHandler y.unlogged)
    rw [hlog x, hlog s, hx]
  rw [← hnote (s.note (.called s.r.inHandler s.r.state)) rfl]
  unfold requestLoop
  dsimp only
  rw [show (s.note (.called s.r.inHandler s.r.state)).r.inHandler = s.r.inHandler from rfl]
  cases s.r.inHandler.run cfg e (s.note (.called s.r.inHandler s.r.state)) with
  | error f => rfl
  | ok p =>
      show _ = goOn cfg e n p
      unfold goOn
      dsimp only
      split_ifs <;> rfl

/-! ### Calls that ask for more -/

/-- A loop that answers `AGAIN`: its first handler has, or the rest. -/
theorem requestLoop_again {n : ℕ} (h : requestLoop cfg e (n + 1) s = (.ok .again, s₁)) :
    s.r.inHandler.run cfg e (s.note (.called s.r.inHandler s.r.state)) = .ok (.again, s₁) ∨
      ∃ s₂, s.r.inHandler.run cfg e (s.note (.called s.r.inHandler s.r.state)) = .ok (.ok, s₂) ∧
        s₂.r.bodyDone = false ∧ requestLoop cfg e n s₂ = (.ok .again, s₁) := by
  unfold requestLoop at h
  dsimp only at h
  rw [show (s.note (.called s.r.inHandler s.r.state)).r.inHandler = s.r.inHandler from rfl] at h
  cases hrun : s.r.inHandler.run cfg e (s.note (.called s.r.inHandler s.r.state)) with
  | error f =>
      rw [hrun] at h
      cases h
  | ok p =>
      obtain ⟨rc, s₂⟩ := p
      rw [hrun] at h
      dsimp only at h
      split_ifs at h with hgo
      · obtain ⟨rfl, hd⟩ := hgo
        exact .inr ⟨s₂, rfl, hd, h⟩
      · cases h
        exact .inl rfl

/-- The body phase asks for more of the body with `EVENTS_IN` off. -/
theorem requestLoop_body_again {n : ℕ} (hin : s.r.inHandler = .body)
    (h : requestLoop cfg e (n + 1) s = (.ok .again, s₁)) : s₁.c.evIn = false := by
  rcases requestLoop_again h with h | ⟨s₂, h, hd, -⟩
  · rw [hin] at h
    unfold InHandler.run requestHandleBody at h
    dsimp only at h
    split_ifs at h
    rw [show (s.note _).r = s.r from rfl] at h
    cases hp : parseRequestBodyIdentity s.r with
    | mk err r =>
        rw [hp] at h
        dsimp only at h
        cases err with
        | again =>
            obtain ⟨s₂, hout, hs⟩ := bind_ok h
            cases hs
            unfold enableUpstreamOut at hout
            split_ifs at hout
            cases hout
            rfl
        | ok =>
            obtain ⟨s₂, -, hs⟩ := bind_ok h
            cases hs
        | _ => cases (responseBuildErr_spec h).1
  · have hrank := InHandler.run_rank (s := s.note _) h hd
    rw [show (s.note _).r.inHandler = .body from hin] at hrank
    exact absurd hrank (Nat.not_lt_zero _)

/-- The header phase asks for more header lines. -/
theorem requestLoop_headers_again {n : ℕ} (hin : s.r.inHandler = .headers)
    (h : requestLoop cfg e (n + 2) s = (.ok .again, s₁)) (hev : s₁.c.evIn = true) :
    headersLoop cfg e (s.r.rb.size + 1) (s.note (.called .headers s.r.state)) = .ok (.again, s₁) := by
  have hrun := requestLoop_again h
  rw [hin] at hrun
  rcases hrun with hrun | ⟨s₂, hrun, -, hloop⟩
  · exact hrun
  · rw [requestLoop_body_again (headersLoop_ok hrun) hloop] at hev
    cases hev

/-! ### More bytes -/

/-- `d` is put into the read buffer. -/
def Session.put (d : List UInt8) (s : Session) : Session := { s with r := s.r.mapRb (·.put d) }

theorem Session.varied_put (d : List UInt8) (s : Session) : s.varied (·.put d) [] = s.put d := by
  unfold Session.varied
  rw [List.append_nil]
  rfl

theorem parseHeaderLine_answer {rc : Rc} (h : parseHeaderLine r = .ok (rc, r')) :
    rc = .again ∨ rc = .ok ∨ rc = .emptyLine := by
  rcases parseHeaderLine_cases h with ⟨hrc, -⟩ | ⟨k, r₁, r₂, hrc, -⟩
  · exact .inl hrc
  · split_ifs at hrc
    · exact .inr (.inr hrc)
    · exact .inr (.inl hrc)

theorem parseHeaderLine_resumes (hb : r.rb.begin ≤ r.rb.end_) (d : List UInt8)
    (h : parseHeaderLine r = .ok (.again, r')) :
    parseHeaderLine (r'.mapRb (·.put d)) = parseHeaderLine (r.mapRb (·.put d)) ∧
      r'.rb.begin = r'.rb.end_ := by
  have hphase : Phase.headers ≠ .stopped := by simp
  obtain ⟨q, -, hq⟩ := parseCall_again hphase h
  refine ⟨?_, by rw [hq]; rfl⟩
  rcases parseCall_resumes hb d hphase h with h | ⟨h, -⟩
  · exact h
  · cases h

/-- A header line, with more bytes behind it, is looked up in vain as well. -/
theorem headersLoop_put {m : ℕ} (hcfg : cfg.headerGet = headerMapGet) (hb : s.r.rb.begin ≤ s.r.rb.end_)
    (hnamed : Named s.r.rb.begin s.r) (hp : parseHeaderLine s.r = .ok (.ok, r)) (d : List UInt8) :
    headersLoop cfg e (m + 1) (s.put d) = headersLoop cfg e m (Session.put d { s with r := r }) := by
  have hphase : Phase.headers ≠ .stopped := by simp
  have hput : parseHeaderLine (s.put d).r = .ok (.ok, r.mapRb (·.put d)) :=
    parseCall_done hb d hphase hp (by simp)
  have hnamed' : Named (s.put d).r.rb.begin (s.put d).r :=
    hnamed.congr rfl rfl fun k hk => s.r.rb.put_mem_lt d (hk.trans_le hb)
  obtain ⟨-, hends⟩ := hnamed'.parse (hb.trans (Nat.le_add_right _ _)) hput
  rw [headersLoop_line hput, hcfg, headerMapGet_none (hends rfl)]
  rfl

/-- **The header loop** goes on where it asked for more.  The induction is on its rounds, one for each
line that was complete. -/
theorem headersLoop_resumes {n m : ℕ} (hcfg : cfg.headerGet = headerMapGet)
    (hb : s.r.rb.begin ≤ s.r.rb.end_) (hready : HeaderReady s.r) (hnamed : Named s.r.rb.begin s.r)
    (hn : s.r.rb.size < n) (h : headersLoop cfg e n s = .ok (.again, s₁))
    (hm : s.r.rb.size + d.length < m) :
    headersLoop cfg e m (s₁.put d) = headersLoop cfg e m (s.put d) ∧
      s₁.r.rb.begin = s₁.r.rb.end_ ∧ HeaderReady s₁.r ∧ Named s₁.r.rb.begin s₁.r ∧
        s₁.r.rb.end_ = s.r.rb.end_ ∧ s₁.r.inHandler = s.r.inHandler := by
  induction n generalizing s m with
  | zero => omega
  | succ n ih =>
      obtain ⟨m, rfl⟩ : ∃ k, m = k + 1 := ⟨m - 1, by omega⟩
      obtain ⟨rc, r, hp, hready'⟩ := parseHeaderLine_ready hready
      obtain ⟨hnamed', hends⟩ := hnamed.parse hb hp
      obtain ⟨name, value, st, b, hframe, hend, hle⟩ := parseHeaderLine_frame hp
      have hend' : r.rb.end_ = s.r.rb.end_ := by
        rw [hframe]
        exact hend
      have hin' : r.inHandler = s.r.inHandler := by rw [hframe]
      rcases parseHeaderLine_answer hp with rfl | rfl | rfl
      · rw [headersLoop, hp] at h
        cases h
        obtain ⟨hresume, hconsumed⟩ := parseHeaderLine_resumes hb d hp
        refine ⟨?_, hconsumed, hready', hnamed', hend', hin'⟩
        rw [headersLoop, headersLoop]
        show parseHeaderLine (r.mapRb (·.put d)) >>= _ = parseHeaderLine (s.r.mapRb (·.put d)) >>= _
        rw [hresume]
        rfl
      · have hsize := parseHeaderLine_size hp
        have hb' : r.rb.begin ≤ r.rb.end_ := by
          rw [hframe]
          exact (hle hb).trans hend.ge
        rw [headersLoop_line hp, hcfg, headerMapGet_none (hends rfl)] at h
        obtain ⟨hloop, hconsumed, hready₁, hnamed₁, hend₁, hin₁⟩ :=
          ih (s := { s with r := r }) (m := m) hb' hready' hnamed' (by show r.rb.size < n; omega) h
            (by show r.rb.size + _ < m; omega)
        refine ⟨?_, hconsumed, hready₁, hnamed₁, hend₁.trans hend', hin₁.trans hin'⟩
        have hsize₁ : (s₁.put d).r.rb.size = d.length := by
          show s₁.r.rb.end_ + d.length - s₁.r.rb.begin = d.length
          omega
        rw [headersLoop_put hcfg hb hnamed hp, ← hloop]
        exact headersLoop_fuel (by omega) (by omega)
      · rw [headersLoop, hp] at h
        cases h

/-- The header phase goes on where it asked for more. -/
theorem requestLoop_headers_resumes {n m : ℕ} (hcfg : cfg.headerGet = headerMapGet)
    (hin : s.r.inHandler = .headers) (hb : s.r.rb.begin ≤ s.r.rb.end_) (hready : HeaderReady s.r)
    (hnamed : Named s.r.rb.begin s.r) (h : requestLoop cfg e (n + 2) s = (.ok .again, s₁))
    (hev : s₁.c.evIn = true) (d : List UInt8) :
    outcome (requestLoop cfg e (m + 1) (s₁.put d)) = outcome (requestLoop cfg e (m + 1) (s.put d)) ∧
      s₁.r.rb.begin = s₁.r.rb.end_ ∧ HeaderReady s₁.r ∧ Named s₁.r.rb.begin s₁.r ∧
        s₁.r.rb.end_ = s.r.rb.end_ ∧ s₁.r.inHandler = .headers := by
  have hfirst := requestLoop_headers_again hin h hev
  obtain ⟨hloop, hconsumed, hready₁, hnamed₁, hend₁, hin₁⟩ :=
    headersLoop_resumes (s := s.note (.called .headers s.r.state)) (d := d) hcfg hb hready hnamed
      (Nat.lt_succ_self _) hfirst (Nat.lt_succ_self _)
  have hin₁ : s₁.r.inHandler = .headers := hin₁.trans hin
  refine ⟨?_, hconsumed, hready₁, hnamed₁, hend₁, hin₁⟩
  have hsize : s.r.rb.size + d.length = (s.put d).r.rb.size := by
    unfold Buffer.size
    show s.r.rb.end_ - s.r.rb.begin + d.length = s.r.rb.end_ + d.length - s.r.rb.begin
    omega
  have hsize₁ : (s₁.put d).r.rb.size = d.length := by
    show s₁.r.rb.end_ + d.length - s₁.r.rb.begin = d.length
    omega
  have hrun : (s₁.put d).r.inHandler.run cfg e (s₁.put d) =
      (s.put d).r.inHandler.run cfg e ((s.note (.called .headers s.r.state)).put d) := by
    rw [show (s₁.put d).r.inHandler = .headers from hin₁, show (s.put d).r.inHandler = .headers from hin]
    refine (headersLoop_fuel (Nat.lt_succ_self _) ?_).trans (hloop.trans ?_)
    · rw [hsize₁]
      exact Nat.lt_succ_of_le (Nat.le_add_left _ _)
    · rw [show (s.note (.called .headers s.r.state)).r.rb.size + d.length = (s.put d).r.rb.size from hsize]
      rfl
  have hsame : (s.put d).unlogged = ((s.note (.called .headers s.r.state)).put d).unlogged := rfl
  rw [outcome_congr hsame, outcome_succ, outcome_succ, hrun]
  rfl

/-! ### The request line -/

/-- The request behind an accepted line. -/
def Request.accepted (r : Request) : Request :=
  { r with keepAlive := r.version.minor = 1, inHandler := .headers }

theorem requestHandleRequestLine_accepted (hp : parseRequestLine s.r = .ok (.ok, r))
    (hv : ¬ (r.version.major ≠ 1 ∨ r.version.minor > 2)) :
    requestHandleRequestLine cfg e s = requestHandleUri cfg e { s with r := r.accepted } := by
  have hrest : requestHandleRequestLine cfg e s =
      if r.version.major ≠ 1 ∨ r.version.minor > 2 then responseBuildErr e.date 505 { s with r := r }
      else requestHandleUri cfg e { s with r := r.accepted } := by
    unfold requestHandleRequestLine
    rw [hp]
    rfl
  rw [hrest, if_neg hv]

/-- `sy_request_handle_uri` answers `OK`. -/
theorem requestHandleUri_answer {rc : Rc} (h : requestHandleUri cfg e s = .ok (rc, s₁)) : rc = .ok := by
  revert rc s₁
  refine requestHandleUri_cases (P := fun x => ∀ {s₁ rc}, x = .ok (rc, s₁) → rc = .ok)
    (fun f _ _ _ h => ?_) (fun status _ s₂ _ _ _ h => ?_) fun s₂ _ _ _ h => ?_
  · cases h
  · exact (responseBuildErr_spec h).1
  · cases h
    rfl

theorem requestHandleRequestLine_again (h : requestHandleRequestLine cfg e s = .ok (.again, s₁)) :
    ∃ r, parseRequestLine s.r = .ok (.again, r) ∧ s₁ = { s with r := r } := by
  obtain ⟨⟨err, r⟩, hp, h2⟩ := bind_ok h
  dsimp only at h2
  split_ifs at h2 with herr
  · cases h2
    exact ⟨r, herr ▸ hp, rfl⟩
  · cases (responseBuildErr_spec h2).1
  · cases (responseBuildErr_spec h2).1
  · cases requestHandleUri_answer h2

theorem requestHandleRequestLine_open (h : requestHandleRequestLine cfg e s = .ok (.ok, s₁))
    (hd : s₁.r.bodyDone = false) :
    ∃ r, parseRequestLine s.r = .ok (.ok, r) ∧ ¬ (r.version.major ≠ 1 ∨ r.version.minor > 2) ∧
      requestHandleUri cfg e { s with r := r.accepted } = .ok (.ok, s₁) := by
  obtain ⟨⟨err, r⟩, hp, h2⟩ := bind_ok h
  dsimp only at h2
  split_ifs at h2 with hagain hok hv
  · cases h2
  · obtain ⟨-, b, -, rfl⟩ := responseBuildErr_spec h2
    cases hd
  · obtain ⟨-, b, -, rfl⟩ := responseBuildErr_spec h2
    cases hd
  · exact ⟨r, by rw [hp, not_not.mp hok], hv, h2⟩

theorem requestHandleRequestLine_refused {rc : Rc} (hp : parseRequestLine s.r = .ok (rc, r))
    (hok : rc ≠ .ok) (hagain : rc ≠ .again) :
    requestHandleRequestLine cfg e s = responseBuildErr e.date 400 { s with r := r } := by
  have hrest : requestHandleRequestLine cfg e s = if rc = .again then .ok (.again, { s with r := r })
      else if rc ≠ .ok then responseBuildErr e.date 400 { s with r := r }
      else if r.version.major ≠ 1 ∨ r.version.minor > 2 then responseBuildErr e.date 505 { s with r := r }
      else requestHandleUri cfg e { s with r := r.accepted } := by
    unfold requestHandleRequestLine
    rw [hp]
    rfl
  rw [hrest, if_neg hagain, if_pos hok]

/-- With a page the loop ends, and `rb.begin` is forgotten. -/
theorem goOn_page {n k : ℕ} {x y : Except Fault (Rc × Session)} {l : List Action}
    (h : Under (.varied (beginAt k) l) x y) (hpage : ∀ rc s, x = .ok (rc, s) → s.r.bodyDone = true) :
    y >>= goOn cfg e n = x >>= goOn cfg e n := by
  cases h with
  | error f => rfl
  | ok rc s =>
      have hdone := hpage rc s rfl
      have hstop : ∀ p : Rc × Session, p.2.r.bodyDone = true → goOn cfg e n p = .ok (p.1, p.2.quiet) := by
        intro p hp
        exact if_neg fun h => by rw [hp] at h; cases h.2
      exact (hstop (rc, s.varied (beginAt k) l) hdone).trans (hstop (rc, s) hdone).symm

/-- A parser that goes on where it was, or refuses with another `rb.begin`. -/
theorem outcome_line_resumes {n : ℕ} (hin : r.inHandler = .requestLine) (hin' : r'.inHandler = .requestLine)
    (h : parseRequestLine r' = parseRequestLine r ∨ ∃ rc q k, rc ≠ .ok ∧ rc ≠ .again ∧
      parseRequestLine r = .ok (rc, q) ∧ parseRequestLine r' = .ok (rc, q.mapRb (beginAt k))) :
    outcome (requestLoop cfg e (n + 1) { s with r := r' }) =
      outcome (requestLoop cfg e (n + 1) { s with r := r }) := by
  rw [outcome_succ, outcome_succ, hin, hin']
  show requestHandleRequestLine _ _ _ >>= _ = requestHandleRequestLine _ _ _ >>= _
  rcases h with h | ⟨rc, q, k, hok, hagain, hp, hp'⟩
  · unfold requestHandleRequestLine
    dsimp only
    rw [h]
  · rw [requestHandleRequestLine_refused (s := { s with r := r }) hp hok hagain,
      requestHandleRequestLine_refused (s := { s with r := r' }) hp' hok hagain]
    refine goOn_page (k := k) (l := []) ?_ fun rc s₁ hbuild => ?_
    · have hvaried : { s with r := q.mapRb (beginAt k) } =
          Session.varied (beginAt k) [] { s with r := q } := by
        unfold Session.varied
        rw [List.append_nil]
      rw [hvaried]
      exact responseBuildErr_varied _ _ _
    · obtain ⟨-, b, -, rfl⟩ := responseBuildErr_spec hbuild
      rfl

theorem parseRequestLine_resumes (hb : r.rb.begin ≤ r.rb.end_) (d : List UInt8)
    (h : parseRequestLine r = .ok (.again, r')) :
    parseRequestLine (r'.mapRb (·.put d)) = parseRequestLine (r.mapRb (·.put d)) ∨
      ∃ rc q k, rc ≠ .ok ∧ rc ≠ .again ∧ parseRequestLine (r.mapRb (·.put d)) = .ok (rc, q) ∧
        parseRequestLine (r'.mapRb (·.put d)) = .ok (rc, q.mapRb (beginAt k)) := by
  have hphase : Phase.line ≠ .stopped := by simp
  rcases parseCall_resumes hb d hphase h with h | ⟨-, h⟩
  · exact .inl h
  · exact .inr h

theorem parseRequestLine_put (hb : r.rb.begin ≤ r.rb.end_) (d : List UInt8)
    (h : parseRequestLine r = .ok (.ok, r')) :
    parseRequestLine (r.mapRb (·.put d)) = .ok (.ok, r'.mapRb (·.put d)) := by
  have hphase : Phase.line ≠ .stopped := by simp
  exact parseCall_done hb d hphase h (by simp)

/-! ### Sessions that wait for the rest of a request -/

/-- The session has read `t`, and asks for more of the request line or of the header lines. -/
inductive Awaits (r₀ : Request) (a : ConnAddr) (t : List UInt8) (s : Session) : Prop where
  | line (hin : s.r.inHandler = .requestLine)
      (hp : parseRequestLine (freshRequest r₀ a t) = .ok (.again, s.r))
  | headers (hin : s.r.inHandler = .headers) (hb : s.r.rb.begin = s.r.rb.end_) (hready : HeaderReady s.r)
      (hnamed : Named s.r.rb.begin s.r) (hend : s.r.rb.end_ = t.length)

theorem freshRequest_put (r₀ : Request) (a : ConnAddr) (t d : List UInt8) :
    (freshRequest r₀ a t).mapRb (·.put d) = freshRequest r₀ a (t ++ d) := by
  unfold freshRequest Request.mapRb
  dsimp only
  rw [Buffer.put_put]

theorem freshRequest_ends (r₀ : Request) (a : ConnAddr) (t : List UInt8) :
    (freshRequest r₀ a t).rb.begin = 0 ∧ (freshRequest r₀ a t).rb.end_ = t.length :=
  ⟨rfl, Nat.zero_add _⟩

/-- A fresh session has read nothing. -/
theorem Awaits.fresh (hs : s.r = requestInit r₀ a) : Awaits r₀ a [] s := by
  refine .line (by rw [hs]; rfl) ?_
  have hput : freshRequest r₀ a [] = requestInit r₀ a := by
    unfold freshRequest
    dsimp only
    rw [Buffer.put_nil]
  rw [hs, hput]
  rfl

theorem Awaits.ends (h : Awaits r₀ a t s) : s.r.rb.begin = s.r.rb.end_ ∧ s.r.rb.end_ = t.length := by
  cases h with
  | line hin hp =>
      have hphase : Phase.line ≠ .stopped := by simp
      obtain ⟨q, hscan, hq⟩ := parseCall_again hphase hp
      rw [hq]
      exact ⟨rfl, (scan_end hscan).trans (freshRequest_ends r₀ a t).2⟩
  | headers hin hb hready hnamed hend => exact ⟨hb, hend⟩

theorem mapRb_put_put (r : Request) (d d' : List UInt8) :
    (r.mapRb (·.put d)).mapRb (·.put d') = r.mapRb (·.put (d ++ d')) := by
  unfold Request.mapRb
  dsimp only
  rw [Buffer.put_put]

/-- What the line makes of more bytes is what the whole text makes of them, where it is not refused. -/
theorem fresh_resumes {rc : Rc} (hp : parseRequestLine (freshRequest r₀ a t) = .ok (.again, s.r))
    (h : parseRequestLine (s.r.mapRb (·.put d)) = .ok (rc, r)) (hrc : rc = .ok ∨ rc = .again) :
    parseRequestLine (freshRequest r₀ a (t ++ d)) = .ok (rc, r) := by
  have hb : (freshRequest r₀ a t).rb.begin ≤ (freshRequest r₀ a t).rb.end_ := Nat.zero_le _
  have hresume := parseRequestLine_resumes hb d hp
  rw [freshRequest_put] at hresume
  rcases hresume with hresume | ⟨rc', q, k, hok, hagain, -, hq⟩
  · rw [← hresume, h]
  · rw [hq] at h
    cases h
    rcases hrc with rfl | rfl
    · exact absurd rfl hok
    · exact absurd rfl hagain

/-- The line asks for more. -/
theorem Awaits.line_again {x : Action} (hin : s.r.inHandler = .requestLine)
    (hp : parseRequestLine (freshRequest r₀ a t) = .ok (.again, s.r))
    (hb : s.r.rb.begin ≤ s.r.rb.end_)
    (hrun : requestHandleRequestLine cfg e ((s.receive d).note x) = .ok (.again, s₁)) :
    Awaits r₀ a (t ++ d) s₁ ∧ ∀ d', outcome (requestLoop cfg e 3 (s₁.put d')) =
      outcome (requestLoop cfg e 3 (s.put (d ++ d'))) := by
  obtain ⟨r, hpr, rfl⟩ := requestHandleRequestLine_again hrun
  have hpr : parseRequestLine (s.r.mapRb (·.put d)) = .ok (.again, r) := hpr
  have hinr : r.inHandler = .requestLine := by
    obtain ⟨_, _, _, _, _, _, rfl, -⟩ := parseRequestLine_frame hpr
    exact hin
  refine ⟨.line hinr (fresh_resumes hp hpr (.inr rfl)), fun d' => ?_⟩
  have hb₁ : (s.r.mapRb (·.put d)).rb.begin ≤ (s.r.mapRb (·.put d)).rb.end_ :=
    hb.trans (Nat.le_add_right _ _)
  have hresume := parseRequestLine_resumes hb₁ d' hpr
  rw [mapRb_put_put] at hresume
  have hleft : outcome (requestLoop cfg e 3 (Session.put d' { (s.receive d).note x with r := r })) =
      outcome (requestLoop cfg e 3 { s with r := r.mapRb (·.put d') }) := outcome_congr rfl
  have hright : s.put (d ++ d') = { s with r := s.r.mapRb (·.put (d ++ d')) } := rfl
  rw [hleft, hright]
  exact outcome_line_resumes (n := 2) (s := s) hin hinr hresume

/-- An accepted line, with more bytes behind it. -/
theorem requestHandleRequestLine_put (hb : s.r.rb.begin ≤ s.r.rb.end_)
    (hp : parseRequestLine s.r = .ok (.ok, r)) (hv : ¬ (r.version.major ≠ 1 ∨ r.version.minor > 2))
    (hwithin : UriWithin cfg r.accepted)
    (h : requestHandleUri cfg e { s with r := r.accepted } = .ok (.ok, s₁)) (d : List UInt8) :
    requestHandleRequestLine cfg e (s.put d) = .ok (.ok, s₁.put d) := by
  have hput : parseRequestLine (s.put d).r = .ok (.ok, r.mapRb (·.put d)) := parseRequestLine_put hb d hp
  rw [requestHandleRequestLine_accepted hput hv]
  have hseen : Under (.varied (·.put d) []) _ _ :=
    requestHandleUri_varied (e := e) (s := { s with r := r.accepted }) (hwithin.seen d)
  rw [Session.varied_put, h] at hseen
  rw [← Session.varied_put d s₁]
  exact hseen.of_ok

/-- What `sy_request_handle_uri` leaves of the parser's state. -/
theorem requestHandleUri_cursors {rc : Rc} (h : requestHandleUri cfg e s = .ok (rc, s₁)) :
    s₁.r.state = s.r.state ∧ s₁.r.inHandler = s.r.inHandler ∧ s₁.r.rb.begin = s.r.rb.begin ∧
      s₁.r.rb.end_ = s.r.rb.end_ := by
  cases requestHandleUri_move h <;> exact ⟨rfl, rfl, rfl, rfl⟩

/-- The line is accepted, and the header lines ask for more. -/
theorem Awaits.line_accepted {x : Action} {s₂ : Session} (hcfg : cfg.headerGet = headerMapGet)
    (hlocs : ∀ loc ∈ cfg.locations, cLf ∉ loc.path) (hfit : (t ++ d).length ≤ BUF_SIZE)
    (hlen : ∀ r, parseRequestLine (freshRequest r₀ a (t ++ d)) = .ok (.ok, r) → r.uri.absPath.len ≠ 0)
    (hin : s.r.inHandler = .requestLine) (hp : parseRequestLine (freshRequest r₀ a t) = .ok (.again, s.r))
    (hb : s.r.rb.begin ≤ s.r.rb.end_) (hend : s.r.rb.end_ = t.length)
    (hrun : requestHandleRequestLine cfg e ((s.receive d).note x) = .ok (.ok, s₂))
    (hd : s₂.r.bodyDone = false) (hloop : requestLoop cfg e 2 s₂ = (.ok .again, s₁))
    (hev : s₁.c.evIn = true) :
    Awaits r₀ a (t ++ d) s₁ ∧ ∀ d', outcome (requestLoop cfg e 3 (s₁.put d')) =
      outcome (requestLoop cfg e 3 (s.put (d ++ d'))) := by
  obtain ⟨r, hpr, hv, huri⟩ := requestHandleRequestLine_open hrun hd
  have hpr : parseRequestLine (s.r.mapRb (·.put d)) = .ok (.ok, r) := hpr
  have hfresh := fresh_resumes hp hpr (.inl rfl)
  have hwithin : UriWithin cfg r.accepted := by
    obtain ⟨hsize, hport, hpath, hnul, hlocs⟩ := UriWithin.of_line hfresh hfit (hlen r hfresh) hlocs
    exact ⟨hsize, hport, hpath, hnul, hlocs⟩
  obtain ⟨hst, i, hi, -, hrb⟩ := parseRequestLine_done hpr
  obtain ⟨hst₂, hin₂, hbegin₂, hend₂⟩ := requestHandleUri_cursors huri
  have hst₂ : s₂.r.state = .hlBegin := hst₂.trans hst
  have hend₂ : s₂.r.rb.end_ = (t ++ d).length := by
    rw [hend₂, show r.accepted.rb = r.rb from rfl, hrb, List.length_append, ← hend]
    rfl
  have hb₂ : s₂.r.rb.begin ≤ s₂.r.rb.end_ := by
    rw [hbegin₂, hend₂, show r.accepted.rb = r.rb from rfl, hrb, List.length_append, ← hend]
    exact hi
  have hready₂ : HeaderReady s₂.r := by
    unfold HeaderReady
    rw [hst₂]
    rfl
  have hresume := fun d' => requestLoop_headers_resumes (m := 2) hcfg hin₂ hb₂ hready₂ (.of_begin hst₂)
    hloop hev d'
  obtain ⟨-, hb₁, hready₁, hnamed₁, hend₁, hin₁⟩ := hresume []
  refine ⟨.headers hin₁ hb₁ hready₁ hnamed₁ (hend₁.trans hend₂), fun d' => ?_⟩
  have hb' : ((s.receive d).note x).r.rb.begin ≤ ((s.receive d).note x).r.rb.end_ :=
    hb.trans (Nat.le_add_right _ _)
  have hline := requestHandleRequestLine_put hb' hpr hv hwithin huri d'
  have hsame : (s.put (d ++ d')).unlogged = (((s.receive d).note x).put d').unlogged := by
    unfold Session.unlogged Session.put
    rw [← mapRb_put_put]
    rfl
  have hfuel : requestLoop cfg e (2 + 1) (s₂.put d') = requestLoop cfg e 2 (s₂.put d') := by
    refine requestLoop_fuel ?_ ?_ <;> rw [show (s₂.put d').r.inHandler = .headers from hin₂] <;> decide
  rw [(hresume d').1, hfuel, outcome_congr hsame, outcome_succ 2,
    show (((s.receive d).note x).put d').r.inHandler = .requestLine from hin]
  show _ = requestHandleRequestLine _ _ _ >>= _
  rw [hline]
  exact (if_pos ⟨rfl, hd⟩).symm

/-- **A piece that is not the last one.**  It is asked for more, and what it was makes no difference to what
comes of the rest. -/
theorem Awaits.piece (hcfg : cfg.headerGet = headerMapGet) (hlocs : ∀ loc ∈ cfg.locations, cLf ∉ loc.path)
    (h : Awaits r₀ a t s) (hfit : (t ++ d).length ≤ BUF_SIZE)
    (hlen : ∀ r, parseRequestLine (freshRequest r₀ a (t ++ d)) = .ok (.ok, r) → r.uri.absPath.len ≠ 0)
    (hrun : requestLoop cfg e 3 (s.receive d) = (.ok .again, s₁)) (hev : s₁.c.evIn = true) :
    Awaits r₀ a (t ++ d) s₁ ∧ ∀ d', outcome (requestLoop cfg e 3 (s₁.put d')) =
      outcome (requestLoop cfg e 3 (s.put (d ++ d'))) := by
  obtain ⟨hb, hend⟩ := h.ends
  cases h with
  | line hin hp =>
      have hloop := requestLoop_again hrun
      rw [show (s.receive d).r.inHandler = .requestLine from hin] at hloop
      rcases hloop with hfirst | ⟨s₂, hfirst, hd, hrest⟩
      · exact Awaits.line_again hin hp hb.le hfirst
      · exact Awaits.line_accepted hcfg hlocs hfit hlen hin hp hb.le hend hfirst hd hrest hev
  | headers hin _ hready hnamed _ =>
      have hb' : (s.receive d).r.rb.begin ≤ (s.receive d).r.rb.end_ := hb.le.trans (Nat.le_add_right _ _)
      have hnamed' : Named (s.receive d).r.rb.begin (s.receive d).r :=
        hnamed.congr rfl rfl fun k hk => s.r.rb.put_mem_lt d (hk.trans_le hb.le)
      have hresume := fun d' => requestLoop_headers_resumes (n := 1) (m := 2) (s := s.receive d) hcfg hin
        hb' hready hnamed' hrun hev d'
      obtain ⟨-, hb₁, hready₁, hnamed₁, hend₁, hin₁⟩ := hresume []
      refine ⟨.headers hin₁ hb₁ hready₁ hnamed₁ (hend₁.trans ?_), fun d' => ?_⟩
      · rw [List.length_append, ← hend]
        rfl
      · have hsame : ((s.receive d).put d').unlogged = (s.put (d ++ d')).unlogged := by
          unfold Session.unlogged Session.put
          rw [← mapRb_put_put]
          rfl
        exact (hresume d').1.trans (outcome_congr hsame)

/-! ### Calls with the same answers -/

section answers

variable (hdate : e'.date = e.date) (hup : e'.upstream = e.upstream) (hres : e'.resource = e.resource)

include hdate in
theorem headersLoop_answers (n : ℕ) (s : Session) : headersLoop cfg e' n s = headersLoop cfg e n s := by
  induction n generalizing s with
  | zero => rfl
  | succ n ih =>
      unfold headersLoop
      simp only [ih, hdate]

include hdate in
theorem requestHandleBody_answers (s : Session) : requestHandleBody e' s = requestHandleBody e s := by
  unfold requestHandleBody bodyRespond
  rw [hdate]

include hdate hup hres in
theorem requestHandleRequestLine_answers (s : Session) :
    requestHandleRequestLine cfg e' s = requestHandleRequestLine cfg e s := by
  unfold requestHandleRequestLine requestHandleUri
  rw [hdate, hup, hres]

include hdate hup hres in
/-- `sy_handle_request` asks for the date, an upstream connection and a resource. -/
theorem requestLoop_answers (n : ℕ) (s : Session) : requestLoop cfg e' n s = requestLoop cfg e n s := by
  have hrun : ∀ (h : InHandler) (s : Session), h.run cfg e' s = h.run cfg e s := by
    intro h s
    cases h with
    | requestLine => exact requestHandleRequestLine_answers hdate hup hres s
    | headers => exact headersLoop_answers hdate _ s
    | body => exact requestHandleBody_answers hdate s
  induction n generalizing s with
  | zero => rfl
  | succ n ih =>
      unfold requestLoop
      simp only [hrun, ih]

end answers

/-! ### Pieces -/

/-- In the call the kernel delivers `d`, and answers everything else as in `e`. -/
structure Delivers (e e' : Env) (b : Buffer) (d : List UInt8) : Prop where
  recv : b.recv e'.recvs = (.again, b.put d, d)
  date : e'.date = e.date
  upstream : e'.upstream = e.upstream
  resource : e'.resource = e.resource

theorem handleRequest_delivered (h : Delivers e e' s.r.rb d) :
    handleRequest cfg e' s = requestLoop cfg e 3 (s.receive d) := by
  unfold handleRequest
  rw [h.recv]
  exact requestLoop_answers h.date h.upstream h.resource 3 (s.receive d)

/-- What is delivered fits into the buffer. -/
theorem Delivers.fits {b : Buffer} (h : Delivers e e' b d) (hb : b.end_ ≤ BUF_SIZE) :
    b.end_ + d.length ≤ BUF_SIZE := by
  obtain ⟨rc, x, hrecv, -, hfits⟩ := b.recv_spec e'.recvs
  rw [h.recv] at hrecv
  obtain rfl : d = x := congrArg (fun p => p.2.2) hrecv
  exact hfits hb

/-- One piece that fits. -/
theorem recv_piece {b : Buffer} (hne : d ≠ []) (hfit : b.end_ + d.length ≤ BUF_SIZE) :
    b.recv [.got d] = (.again, b.put d, d) := by
  have hpos := List.length_pos_of_ne_nil hne
  have hfull : b.full = false := by
    unfold Buffer.full
    rw [decide_eq_false_iff_not]
    omega
  have htake : d.take b.margin.toNat = d := by
    refine List.take_of_length_le ?_
    unfold Buffer.margin
    omega
  simp [Buffer.recv, hfull, htake, hne]

/-- The text `t` arrives in pieces, one in each call of `sy_handle_request`, and each call asks for more:
it answers `AGAIN` and leaves `EVENTS_IN` on. -/
inductive Fed (cfg : Config) (e : Env) (s : Session) : List UInt8 → Session → Prop
  | start : Fed cfg e s [] s
  | piece {t d : List UInt8} {s₁ : Session} {e' : Env} (h : Fed cfg e s t s₁)
      (hd : Delivers e e' s₁.r.rb d) (hagain : (handleRequest cfg e' s₁).1 = .ok .again)
      (hev : (handleRequest cfg e' s₁).2.c.evIn = true) : Fed cfg e s (t ++ d) (handleRequest cfg e' s₁).2

/-- No line that the text begins with is accepted with a path of length 0. -/
def PathEnded (r₀ : Request) (a : ConnAddr) (t : List UInt8) : Prop :=
  ∀ r, parseRequestLine (freshRequest r₀ a t) = .ok (.ok, r) → r.uri.absPath.len ≠ 0

theorem PathEnded.of_append (h : PathEnded r₀ a (t ++ d)) : PathEnded r₀ a t := by
  intro r hp
  have hb : (freshRequest r₀ a t).rb.begin ≤ (freshRequest r₀ a t).rb.end_ := Nat.zero_le _
  have hput := parseRequestLine_put hb d hp
  rw [freshRequest_put] at hput
  have hlen := h _ hput
  exact hlen

/-- **The pieces so far** make no difference to what comes of the rest. -/
theorem Fed.coalesces (hcfg : cfg.headerGet = headerMapGet) (hlocs : ∀ loc ∈ cfg.locations, cLf ∉ loc.path)
    (hs : s.r = requestInit r₀ a) (hfed : Fed cfg e s t s₁) (hpath : PathEnded r₀ a t) :
    Awaits r₀ a t s₁ ∧ t.length ≤ BUF_SIZE ∧
      ∀ d, outcome (requestLoop cfg e 3 (s₁.put d)) = outcome (requestLoop cfg e 3 (s.put (t ++ d))) := by
  induction hfed with
  | start => exact ⟨.fresh hs, Nat.zero_le _, fun _ => rfl⟩
  | @piece t d s₁ e' h hd hagain hev ih =>
      obtain ⟨hawaits, hfit, hsame⟩ := ih hpath.of_append
      have hfit' : (t ++ d).length ≤ BUF_SIZE := by
        have hfits := hd.fits (hawaits.ends.2.trans_le hfit)
        rw [hawaits.ends.2] at hfits
        rw [List.length_append]
        exact hfits
      have hrun : requestLoop cfg e 3 (s₁.receive d) = (.ok .again, (handleRequest cfg e' s₁).2) := by
        rw [← handleRequest_delivered hd, ← hagain]
      obtain ⟨hawaits', hsame'⟩ := hawaits.piece hcfg hlocs hfit' hpath hrun hev
      refine ⟨hawaits', hfit', fun d' => ?_⟩
      rw [hsame', hsame, List.append_assoc]

/-- **The cuts of a request make no difference**: two ways in which the same bytes arrive end in the same
answer and the same session, up to the log and `rb.begin`. -/
theorem cuts_agree {s₂ : Session} {e₁ e₂ : Env} {t' : List UInt8} (hcfg : cfg.headerGet = headerMapGet)
    (hlocs : ∀ loc ∈ cfg.locations, cLf ∉ loc.path) (hs : s.r = requestInit r₀ a)
    (hfed₁ : Fed cfg e s t s₁) (hlast₁ : Delivers e e₁ s₁.r.rb d)
    (hfed₂ : Fed cfg e s t' s₂) (hlast₂ : Delivers e e₂ s₂.r.rb d')
    (htext : t ++ d = t' ++ d') (hpath : PathEnded r₀ a (t ++ d)) :
    outcome (handleRequest cfg e₁ s₁) = outcome (handleRequest cfg e₂ s₂) := by
  have hwhole : ∀ {t d : List UInt8} {s₁ : Session} {e₁ : Env}, Fed cfg e s t s₁ →
      Delivers e e₁ s₁.r.rb d → PathEnded r₀ a (t ++ d) →
        outcome (handleRequest cfg e₁ s₁) = outcome (requestLoop cfg e 3 (s.put (t ++ d))) := by
    intro t d s₁ e₁ hfed hlast hpath
    obtain ⟨-, -, hsame⟩ := hfed.coalesces hcfg hlocs hs hpath.of_append
    have hput : (s₁.receive d).unlogged = (s₁.put d).unlogged := rfl
    rw [handleRequest_delivered hlast, outcome_congr hput, hsame]
  rw [hwhole hfed₁ hlast₁ hpath, hwhole hfed₂ hlast₂ (htext ▸ hpath), htext]

/-- A kernel that delivers `d` and finds a file. -/
def pieceEnv (d : List UInt8) : Env :=
  { idleEnv with recvs := [.got d], resource := fun _ => .file 9 5 }

theorem pieceEnv_delivers {b : Buffer} (hne : d ≠ []) (hfit : b.end_ + d.length ≤ BUF_SIZE) :
    Delivers (pieceEnv []) (pieceEnv d) b d :=
  ⟨recv_piece hne hfit, rfl, rfl, rfl⟩

/-- A connection that waits for a request. -/
def pieceSession : Session :=
  { Server.boot.session 0 with r := requestInit .zeroed 0, c := ⟨0, .front, true, false, 0⟩ }

/-- The configuration of a server of files. -/
def pieceConfig : Config := serverConfig 60 [⟨false, bytes "/"⟩]

/-- A cut within a header line. -/
def pieceFirst : List UInt8 := bytes "GET /i.html HTTP/1.1\r\nHo"

/-- The bytes behind the cut. -/
def pieceLast : List UInt8 := bytes "st: a\r\n\r\n"

/-- Within a header line, and at once. -/
theorem cuts_agree_header :
    (handleRequest pieceConfig (pieceEnv (pieceFirst ++ pieceLast)) pieceSession).1 = .ok .ok ∧
      outcome (handleRequest pieceConfig (pieceEnv pieceLast)
        (handleRequest pieceConfig (pieceEnv pieceFirst) pieceSession).2) =
          outcome (handleRequest pieceConfig (pieceEnv (pieceFirst ++ pieceLast)) pieceSession) := by
  have hlen : (parseRequestLine (freshRequest .zeroed 0 (pieceFirst ++ pieceLast))).map
      (fun p => p.2.uri.absPath.len) = .ok 7 := by decide +kernel
  have hpath : PathEnded .zeroed 0 (pieceFirst ++ pieceLast) := by
    intro r hp
    rw [hp] at hlen
    rw [show r.uri.absPath.len = 7 from Except.ok.inj hlen]
    decide
  have hcfg : pieceConfig.headerGet = headerMapGet := by
    unfold pieceConfig serverConfig
    dsimp only
  have hfirst : Fed pieceConfig (pieceEnv []) pieceSession ([] ++ pieceFirst) _ :=
    .piece .start (pieceEnv_delivers (by decide +kernel) (by decide +kernel)) (by decide +kernel)
      (by decide +kernel)
  have hlast : Delivers (pieceEnv []) (pieceEnv pieceLast)
      (handleRequest pieceConfig (pieceEnv pieceFirst) pieceSession).2.r.rb pieceLast :=
    pieceEnv_delivers (by decide +kernel) (by decide +kernel)
  have hwhole : Delivers (pieceEnv []) (pieceEnv (pieceFirst ++ pieceLast)) pieceSession.r.rb
      (pieceFirst ++ pieceLast) := pieceEnv_delivers (by decide +kernel) (by decide +kernel)
  refine ⟨by decide +kernel, ?_⟩
  exact cuts_agree hcfg (by decide +kernel) rfl hfirst hlast .start hwhole rfl hpath

end SyServer
