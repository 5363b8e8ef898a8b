import SyServer.Sessions
import SyServer.Contract
import SyServer.HeaderLookup

/-! # Proxied responses

`Unmixed`: for a request of a proxied location the bytes put into `sb` are the bytes of the upstream
connection, or one error page, and no local response is built.  Whether a request is proxied is
asked of `r->uc` later on, and `sy_response_build_err` does not ask what `sb` has been given, so
it fails

* where a sweep has set `r->uc` to `NULL` and the request is completed behind it,
* where the upstream connection fails behind bytes it has sent, or behind an error page,
* where bytes of the upstream come behind an error page.

With such steps excluded `Unmixed` is an invariant of every run.  `header_map` is the real one, so
no header processor runs (`HeaderLookup.lean`). -/

namespace SyServer

open Transition (Reach exec along_true exists_of_any)

/-! ### What the log says of the response -/

/-- What was done for the request since it began, newest action first. -/
def current : List Action → List Action
  | [] => []
  | .cleared _ :: _ => []
  | a :: l => a :: current l

/-- The bytes put into `sb`. -/
def placed : List Action → List UInt8
  | [] => []
  | .relayed d :: l => placed l ++ d
  | .built d :: l => placed l ++ d
  | .page _ d :: l => placed l ++ d
  | _ :: l => placed l

/-- The bytes read from the upstream connection. -/
def fromUpstream : List Action → List UInt8
  | [] => []
  | .relayed d :: l => fromUpstream l ++ d
  | _ :: l => fromUpstream l

/-- The error pages, newest first. -/
def pages : List Action → List (ℕ × List UInt8)
  | [] => []
  | .page status d :: l => (status, d) :: pages l
  | _ :: l => pages l

/-- The response to one request: from the upstream, or one error page. -/
def Unmixed (l : List Action) : Prop :=
  .matched true ∈ l → (∀ d, .built d ∉ l) ∧
    (pages l = [] ∧ placed l = fromUpstream l ∨
      ∃ status d, pages l = [(status, d)] ∧ (status = 503 ∨ status = 400) ∧
        fromUpstream l = [] ∧ placed l = d)

/-- The response to every request of the log, at each of its actions. -/
def AllUnmixed : List Action → Prop
  | [] => True
  | a :: l => Unmixed (current (a :: l)) ∧ AllUnmixed l

/-- The location matched is proxied. -/
def Proxied (l : List Action) : Prop := .matched true ∈ current l

instance (l : List Action) : Decidable (Proxied l) := inferInstanceAs (Decidable (_ ∈ _))

/-- An action that neither matches a location nor puts anything into `sb`. -/
def Action.silent : Action → Bool
  | received _ | forwarded _ | delivered _ | called _ _ | headersEnd _ => true
  | relayed _ | built _ | page _ _ | matched _ | cleared _ => false

/-- No location was matched, and nothing was put into `sb`. -/
def Untouched (l : List Action) : Prop := ∀ a ∈ current l, a.silent = true

section log

variable {a : Action} {l : List Action}

theorem AllUnmixed.unmixed (h : AllUnmixed l) : Unmixed (current l) := by
  cases l with
  | nil => exact fun hm => by cases hm
  | cons a l => exact h.1

/-- Without local responses everything in `sb` is from the upstream or a page. -/
theorem placed_eq (hbuilt : ∀ d, .built d ∉ l) :
    (pages l = [] → placed l = fromUpstream l) ∧
      ∀ status d, pages l = [(status, d)] → fromUpstream l = [] → placed l = d := by
  induction l with
  | nil => exact ⟨fun _ => rfl, fun _ _ h => by cases h⟩
  | cons a l ih =>
      obtain ⟨ih₁, ih₂⟩ := ih fun d hd => hbuilt d (List.mem_cons_of_mem _ hd)
      cases a with
      | built d => exact absurd List.mem_cons_self (hbuilt d)
      | relayed d =>
          refine ⟨fun h => ?_, fun status d' h hu => ?_⟩
          · show placed l ++ d = fromUpstream l ++ d
            rw [ih₁ h]
          · obtain ⟨hnil, rfl⟩ := List.append_eq_nil_iff.mp (show fromUpstream l ++ d = [] from hu)
            show placed l ++ [] = d'
            rw [List.append_nil]
            exact ih₂ status d' h hnil
      | page status d =>
          refine ⟨(fun h => by cases h), fun status' d' h hu => ?_⟩
          obtain ⟨h1, h2⟩ := List.cons.inj h
          cases h1
          show placed l ++ d = d
          rw [ih₁ h2, show fromUpstream l = [] from hu, List.nil_append]
      | _ => exact ⟨ih₁, ih₂⟩

/-- `Unmixed` from its parts. -/
theorem unmixed_of (hbuilt : ∀ d, .built d ∉ l)
    (h : pages l = [] ∨ ∃ status d, pages l = [(status, d)] ∧ (status = 503 ∨ status = 400) ∧
      fromUpstream l = []) : Unmixed l := by
  obtain ⟨h₁, h₂⟩ := placed_eq hbuilt
  refine fun _ => ⟨hbuilt, ?_⟩
  rcases h with h | ⟨status, d, hp, hs, hu⟩
  · exact .inl ⟨h, h₁ h⟩
  · exact .inr ⟨status, d, hp, hs, hu, h₂ status d hp hu⟩

theorem current_silent (ha : a.silent = true) : current (a :: l) = a :: current l := by
  cases a <;> first | rfl | cases ha

theorem unmixed_silent (ha : a.silent = true) (h : Unmixed l) : Unmixed (a :: l) := by
  have hpages : pages (a :: l) = pages l := by cases a <;> first | rfl | cases ha
  have hup : fromUpstream (a :: l) = fromUpstream l := by cases a <;> first | rfl | cases ha
  have hplaced : placed (a :: l) = placed l := by cases a <;> first | rfl | cases ha
  intro hm
  have hm' : .matched true ∈ l := by
    rcases List.mem_cons.mp hm with rfl | hm
    · cases ha
    · exact hm
  rw [hpages, hup, hplaced]
  refine ⟨fun d hd => ?_, (h hm').2⟩
  rcases List.mem_cons.mp hd with rfl | hd
  · cases ha
  · exact (h hm').1 d hd

theorem proxied_silent (ha : a.silent = true) : Proxied (a :: l) ↔ Proxied l := by
  unfold Proxied
  rw [current_silent ha, List.mem_cons]
  refine or_iff_right ?_
  rintro rfl
  cases ha

theorem untouched_silent (ha : a.silent = true) (h : Untouched l) : Untouched (a :: l) := by
  unfold Untouched
  rw [current_silent ha]
  exact List.forall_mem_cons.mpr ⟨ha, h⟩

theorem allUnmixed_silent (ha : a.silent = true) (h : AllUnmixed l) : AllUnmixed (a :: l) := by
  refine ⟨?_, h⟩
  rw [current_silent ha]
  exact unmixed_silent ha h.unmixed

/-- Nothing is matched, built or put into `sb` in an untouched request. -/
theorem Untouched.parts (h : Untouched l) : ¬ Proxied l ∧ (∀ d, .built d ∉ current l) ∧
    pages (current l) = [] ∧ fromUpstream (current l) = [] := by
  unfold Untouched at h
  unfold Proxied
  generalize current l = l at h
  refine ⟨(fun hm => by cases h _ hm), (fun d hm => by cases h _ hm), ?_⟩
  induction l with
  | nil => exact ⟨rfl, rfl⟩
  | cons a l ih =>
      obtain ⟨ha, hl⟩ := List.forall_mem_cons.mp h
      cases a <;> first | exact ih hl | cases ha

/-- Of a request that is not proxied nothing is said. -/
theorem allUnmixed_not_proxied (h : AllUnmixed l) (hp : ¬ Proxied (a :: l)) :
    AllUnmixed (a :: l) := ⟨fun hm => absurd hm hp, h⟩

/-- An error page in a response that was not begun. -/
theorem allUnmixed_page {status : ℕ} {d : List UInt8} (h : AllUnmixed l)
    (hs : status = 503 ∨ status = 400) (hp : pages (current l) = [])
    (hu : fromUpstream (current l) = []) : AllUnmixed (.page status d :: l) := by
  refine ⟨fun hm => ?_, h⟩
  have hm' : Proxied l := by
    rcases List.mem_cons.mp hm with h1 | h1
    · cases h1
    · exact h1
  refine unmixed_of (fun d' hd => ?_) (.inr ⟨status, d, ?_, hs, hu⟩) hm
  · rcases List.mem_cons.mp hd with h1 | h1
    · cases h1
    · exact (h.unmixed hm').1 d' h1
  · show (status, d) :: pages (current l) = _
    rw [hp]

/-- Bytes of the upstream, not behind an error page. -/
theorem allUnmixed_relayed {d : List UInt8} (h : AllUnmixed l) (hp : d ≠ [] → pages (current l) = []) :
    AllUnmixed (.relayed d :: l) := by
  refine ⟨fun hm => ?_, h⟩
  have hm' : Proxied l := by
    rcases List.mem_cons.mp hm with h1 | h1
    · cases h1
    · exact h1
  obtain ⟨hbuilt, hcase⟩ := h.unmixed hm'
  refine unmixed_of (fun d' hd => ?_) ?_ hm
  · rcases List.mem_cons.mp hd with h1 | h1
    · cases h1
    · exact hbuilt d' h1
  · rcases hcase with ⟨h1, -⟩ | ⟨status, d', h1, hs, hu, -⟩
    · exact .inl h1
    · refine .inr ⟨status, d', h1, hs, ?_⟩
      have hd : d = [] := by
        by_contra hne
        rw [hp hne] at h1
        cases h1
      show fromUpstream (current l) ++ d = []
      rw [hu, hd]
      rfl

/-- A location is matched. -/
theorem allUnmixed_matched {pass : Bool} (h : AllUnmixed l) (hu : Untouched l) :
    AllUnmixed (.matched pass :: l) := by
  obtain ⟨-, hbuilt, hpages, -⟩ := hu.parts
  refine ⟨unmixed_of (fun d hd => ?_) (.inl hpages), h⟩
  rcases List.mem_cons.mp hd with h1 | h1
  · cases h1
  · exact hbuilt d h1

/-- Another location than a proxied one, or nothing, was put on top. -/
theorem not_proxied_cons (hp : ¬ Proxied l) (ha : a ≠ .matched true) (hc : ∀ b, a ≠ .cleared b) :
    ¬ Proxied (a :: l) := by
  intro hm
  have hcur : current (a :: l) = a :: current l := by
    cases a with
    | cleared b => exact absurd rfl (hc b)
    | _ => rfl
  unfold Proxied at hm
  rw [hcur] at hm
  rcases List.mem_cons.mp hm with h1 | h1
  · exact ha h1.symm
  · exact hp h1

/-- Bytes sent to the client. -/
theorem log_sent (ds : List Output) : (AllUnmixed l → AllUnmixed (ds.map .delivered ++ l)) ∧
    (Proxied (ds.map .delivered ++ l) ↔ Proxied l) ∧
      (Untouched l → Untouched (ds.map .delivered ++ l)) := by
  induction ds with
  | nil => exact ⟨id, Iff.rfl, id⟩
  | cons d ds ih =>
      exact ⟨fun h => allUnmixed_silent rfl (ih.1 h), (proxied_silent rfl).trans ih.2.1,
        fun h => untouched_silent rfl (ih.2.2 h)⟩

end log

/-! ### The invariant -/

/-- The request is in its headers, and these do not end within the bytes that are there. -/
def HeadersGoOn (r : Request) : Prop := r.inHandler = .headers ∧ linesEnd (r.rb.size + 1) r = false

/-- The calls that mix a response: the call of `sy_handle_request` that ends the headers of a
proxied request without its upstream, a failing upstream behind bytes it has sent or behind an error
page, and bytes of the upstream behind an error page. -/
def NoMixing (v : View) : SessionEvent → Prop
  | .request e => (v.s.r.rb.recv e.recvs).1 = .again → Proxied v.s.log → v.s.r.bodyDone = false →
      v.s.r.uc = none → HeadersGoOn (v.s.receive (v.s.r.rb.recv e.recvs).2.2).r
  | .upstream e =>
      ((v.s.r.sb.recv e.recvs).2.2 ≠ [] → pages (current v.s.log) = []) ∧
        ((v.s.r.sb.recv e.recvs).1 = .error → (v.s.r.sb.recv e.recvs).2.2 = [] ∧
          pages (current v.s.log) = [] ∧ fromUpstream (current v.s.log) = [])
  | .pass e => (v.s.r.rb.send e.sends).1 = .error →
      pages (current v.s.log) = [] ∧ fromUpstream (current v.s.log) = []
  | _ => True

instance (v : View) : ∀ ev, Decidable (NoMixing v ev)
  | .request _ => inferInstanceAs (Decidable (_ = _ → _ → _ = _ → _ = _ → _ = _ ∧ _ = _))
  | .upstream _ => inferInstanceAs (Decidable ((_ → _) ∧ (_ → _ ∧ _ ∧ _)))
  | .pass _ => inferInstanceAs (Decidable (_ → _ ∧ _))
  | .poll _ | .share _ | .response _ | .close => .isTrue trivial

/-- No response was mixed, and what the next calls rest on: no length of a body is known, the
upstream is written to behind the request only, and nothing is read behind an error page. -/
structure Core (s : Session) : Prop where
  log : AllUnmixed s.log
  plain : s.r.contentLength = -1
  named : s.r.inHandler = .headers → Named s.r.rb.begin s.r
  fresh : s.r.inHandler = .requestLine → s.r.bodyDone = false → Untouched s.log
  out : s.r.uc ≠ none → s.u.evOut = true → s.r.inHandler = .requestLine
  stopped : s.r.bodyDone = true → s.r.inHandler ≠ .requestLine → s.c.evIn = false

/-- Between two calls: an answered request whose upstream is closed has no event left. -/
structure Apart (p : Bool) (s : Session) : Prop extends Core s where
  lone : Proxied s.log → s.r.bodyDone = true → s.r.inHandler ≠ .requestLine → s.r.uc = none →
    p = false

/-- During a call of `sy_handle_request`: a proxied request has its upstream until it is answered,
or its headers do not end in this call; and where the call begins behind an error page. -/
structure Calling (s : Session) : Prop extends Core s where
  upstream : Proxied s.log → s.r.bodyDone = false → s.r.uc = none →
    s.r.inHandler = .headers ∧ ∀ n, linesEnd n s.r = false
  first : ∀ d l, s.log = .received d :: l → Proxied s.log → s.r.bodyDone = true →
    s.r.inHandler ≠ .requestLine → s.r.uc ≠ none
  body : ∀ st d l, s.log = .called .body st :: .received d :: l → Proxied s.log →
    s.r.bodyDone = true → s.r.uc ≠ none

section moves

variable {s s' : Session}

/-- An error page, where `log` allows it. -/
theorem core_errored {status : ℕ} {b : Buffer}
    (hlog : AllUnmixed (.page status (b.slice s.r.sb.end_ b.end_) :: s.log))
    (hplain : s.r.contentLength = -1) (hnamed : s.r.inHandler = .headers → Named s.r.rb.begin s.r)
    (hout : s.r.uc ≠ none → s.u.evOut = true → s.r.inHandler = .requestLine) :
    Core (s.errored status b) where
  log := hlog
  plain := hplain
  named hin := (hnamed hin).congr rfl rfl fun _ _ => rfl
  fresh _ hd := by cases hd
  out := hout
  stopped _ _ := rfl

/-- An error page during a call of `sy_handle_request`. -/
theorem calling_errored {status : ℕ} {b : Buffer} (h : Core (s.errored status b)) :
    Calling (s.errored status b) :=
  { h with
    upstream := fun _ hd => by cases hd
    first := fun _ _ hl => by cases hl
    body := fun _ _ _ hl => by cases hl }

theorem calling_uri (hlog : AllUnmixed s.log) (hfresh : Untouched s.log)
    (hplain : s.r.contentLength = -1) (hst : s.r.state = .hlBegin) (hin : s.r.inHandler = .headers)
    (huc : s.r.uc = none) (hopen : s.r.bodyDone = false) (hm : UriMove s s') : Calling s' := by
  obtain ⟨hnot, -, hpages, hup⟩ := hfresh.parts
  have hnotDone : s.r.bodyDone ≠ true := by rw [hopen]; simp
  have hnotLine : s.r.inHandler ≠ .requestLine := by rw [hin]; simp
  have hother : ¬ Proxied (.matched false :: s.log) := not_proxied_cons hnot (by simp) (by simp)
  cases hm with
  | notFound host port hb =>
      refine calling_errored (core_errored ?_ hplain (fun _ => .of_begin hst) fun h => absurd huc h)
      exact allUnmixed_not_proxied hlog (not_proxied_cons hnot (by simp) (by simp))
  | refused host port hg hb =>
      refine calling_errored (core_errored ?_ hplain (fun _ => .of_begin hst) fun h => absurd rfl h)
      exact allUnmixed_page (allUnmixed_matched hlog hfresh) (.inl rfl) hpages hup
  | missing host port i status hb =>
      refine calling_errored (core_errored ?_ hplain (fun _ => .of_begin hst) fun h => absurd huc h)
      exact allUnmixed_not_proxied (allUnmixed_not_proxied hlog hother)
        (not_proxied_cons hother (by simp) (by simp))
  | proxied host port fd hg =>
      exact {
        log := allUnmixed_matched hlog hfresh
        plain := hplain
        named := fun _ => .of_begin hst
        fresh := fun h => absurd h hnotLine
        out := fun _ h => by cases h
        stopped := fun h => absurd h hnotDone
        upstream := fun _ _ h => by cases h
        first := fun _ _ hl => by cases hl
        body := fun _ _ _ hl => by cases hl }
  | found host port i uri fd size =>
      exact {
        log := allUnmixed_not_proxied hlog hother
        plain := hplain
        named := fun _ => .of_begin hst
        fresh := fun h => absurd h hnotLine
        out := fun h => absurd huc h
        stopped := fun h => absurd h hnotDone
        upstream := fun h => absurd h hother
        first := fun _ _ hl => by cases hl
        body := fun _ _ _ hl => by cases hl }

/-- A call of the header parser, and what it found. -/
theorem core_header {rc : Rc} {r : Request} (hb : Base false s) (h : Calling s)
    (hin : s.r.inHandler = .headers) (hp : parseHeaderLine s.r = .ok (rc, r)) :
    Core { s with r := r } ∧ r.inHandler = .headers ∧ r.bodyDone = s.r.bodyDone ∧ r.uc = s.r.uc ∧
      (rc = .ok → NameEnds r.mem r.headerName.data) := by
  obtain ⟨hnamed, hends⟩ := (h.named hin).parse hb.rb hp
  obtain ⟨_, _, _, _, rfl, -, -⟩ := parseHeaderLine_frame hp
  exact ⟨{ h with named := fun _ => hnamed }, hin, rfl, rfl, hends⟩

/-- Behind a call that does not end the headers. -/
theorem calling_header {rc : Rc} {r : Request} (hb : Base false s) (h : Calling s)
    (hin : s.r.inHandler = .headers) (hp : parseHeaderLine s.r = .ok (rc, r))
    (hleft : (∀ n, linesEnd n s.r = false) → ∀ n, linesEnd n r = false) : Calling { s with r := r } := by
  obtain ⟨hcore, hin', hd, huc, -⟩ := core_header hb h hin hp
  exact { hcore with
    upstream := fun hp hopen hnone =>
      ⟨hin', hleft (h.upstream hp (hd.symm.trans hopen) (huc.symm.trans hnone)).2⟩
    first := fun d l hl hp hdone _ =>
      huc ▸ h.first d l hl hp (hd.symm.trans hdone) (by rw [hin]; simp)
    body := fun st d l hl hp hdone => huc ▸ h.body st d l hl hp (hd.symm.trans hdone) }

theorem calling_client {timeout : ℤ} {locations : List Location} (hb : Base false s)
    (h : Calling s) (hm : ClientMove (serverConfig timeout locations) s s') : Calling s' := by
  -- the real table has no header that the parser could have named
  have hnone : ∀ {r : Request} {v : HeaderVal}, s.r.inHandler = .headers →
      parseHeaderLine s.r = .ok (.ok, r) →
      (serverConfig timeout locations).headerGet r.mem r.headerName = some v → False := by
    intro r v hin hp hget
    have hmiss : headerMapGet r.mem r.headerName = none :=
      headerMapGet_none ((core_header hb h hin hp).2.2.2.2 rfl)
    unfold serverConfig at hget
    dsimp only at hget
    rw [hmiss] at hget
    cases hget
  cases hm with
  | called hl =>
      refine {
        log := allUnmixed_silent rfl h.log
        plain := h.plain
        named := h.named
        fresh := fun h1 h2 => untouched_silent rfl (h.fresh h1 h2)
        out := h.out
        stopped := h.stopped
        upstream := fun hp => h.upstream ((proxied_silent rfl).mp hp)
        first := fun _ _ hl => by cases hl
        body := fun st d l hl hp hd => ?_ }
      obtain ⟨hcall, hrest⟩ := List.cons.inj hl
      have hin : s.r.inHandler = .body := (Action.called.inj hcall).1
      exact h.first d l hrest ((proxied_silent rfl).mp hp) hd (by rw [hin]; simp)
  | lineMore hopen hin hp =>
      have hline : s.r.inHandler ≠ .headers := by rw [hin]; simp
      obtain ⟨_, _, _, _, _, _, rfl, -⟩ := parseRequestLine_frame hp
      exact { h with
        named := fun h1 => absurd h1 hline
        upstream := fun hp hopen huc => absurd (h.upstream hp hopen huc).1 hline }
  | lineError status hopen hin hp hrc hb' =>
      have hnot := (h.fresh hin hopen).parts.1
      obtain ⟨_, _, _, _, _, _, rfl, -⟩ := parseRequestLine_frame hp
      refine calling_errored (core_errored ?_ h.plain
        (fun h1 => absurd (hin.symm.trans h1) (by simp)) h.out)
      exact allUnmixed_not_proxied h.log (not_proxied_cons hnot (by simp) (by simp))
  | @lineOk r s' k hopen hin hp huri =>
      have huc := (hb.fresh hin hopen).2.1
      have hst := (parseRequestLine_done hp).1
      have hsame : r.contentLength = s.r.contentLength ∧ r.uc = s.r.uc ∧ r.bodyDone = s.r.bodyDone := by
        obtain ⟨_, _, _, _, _, _, rfl, -⟩ := parseRequestLine_frame hp
        exact ⟨rfl, rfl, rfl⟩
      exact calling_uri (s := { s with r := { r with keepAlive := k, inHandler := .headers } }) h.log
        (h.fresh hin hopen) (hsame.1.trans h.plain) hst rfl (hsame.2.1.trans huc)
        (hsame.2.2.trans hopen) huri
  | headersMore hin hp => exact calling_header hb h hin hp fun _ => linesEnd_again hp
  | header hin hp =>
      refine calling_header hb h hin hp fun hleft n => ?_
      have hnext := hleft (n + 1)
      unfold linesEnd at hnext
      rwa [hp] at hnext
  | headerSet hs k te n hin hp hget hk => exact (hnone hin hp hget).elim
  | headerError hs status hin hp hget hb' => exact (hnone hin hp hget).elim
  | headersEnd hin hp =>
      obtain ⟨h', hin', hd, huc, -⟩ := core_header hb h hin hp
      exact {
        log := allUnmixed_silent rfl h'.log
        plain := h'.plain
        named := fun h1 => by cases h1
        fresh := fun h1 => by cases h1
        out := fun h1 h2 => absurd (hin'.symm.trans (h'.out h1 h2)) (by simp)
        stopped := fun h1 _ => h'.stopped h1 (by rw [hin']; simp)
        upstream := fun hprox hopen hnone => by
          -- the headers do end here
          have hleft := (h.upstream ((proxied_silent rfl).mp hprox) (hd.symm.trans hopen)
            (huc.symm.trans hnone)).2 1
          unfold linesEnd at hleft
          rw [hp] at hleft
          cases hleft
        first := fun _ _ hl => by cases hl
        body := fun _ _ _ hl => by cases hl }
  | bodyMore n hin hlen huc =>
      rw [h.plain] at hlen
      exact absurd hlen (by decide)
  | bodyRelayed n hin huc =>
      exact { h with
        named := fun h1 => by cases h1
        fresh := fun _ h2 => by cases h2
        out := fun _ _ => rfl
        stopped := fun _ h2 => absurd rfl h2
        upstream := fun _ h2 => by cases h2
        first := fun _ _ _ _ _ _ => huc
        body := fun _ _ _ _ _ _ => huc }
  | bodyLocal n fd hin huc hb' hcall =>
      -- a proxied request has its upstream here
      have hnot : ¬ Proxied s.log := by
        intro hp
        have hopen : s.r.bodyDone ≠ false := by
          intro hopen
          have hheaders := (h.upstream hp hopen huc).1
          rw [hin] at hheaders
          cases hheaders
        obtain ⟨st, l, hl, hopen' | ⟨d, l', rfl⟩⟩ := hcall
        · exact hopen hopen'
        · exact h.body st d l' hl hp (by simpa using hopen) huc
      have hnot' := fun d => not_proxied_cons (a := .built d) hnot (by simp) (by simp)
      exact {
        log := allUnmixed_not_proxied h.log (hnot' _)
        plain := h.plain
        named := fun h1 => by cases h1
        fresh := fun _ h2 => by cases h2
        out := fun h1 => absurd huc h1
        stopped := fun _ h2 => absurd rfl h2
        upstream := fun hp => absurd hp (hnot' _)
        first := fun _ _ hl => by cases hl
        body := fun _ _ _ hl => by cases hl }

theorem apart_response {p : Bool} (hb : Base p s) (h : Apart p s) (hm : ResponseMove s s') :
    Apart p s' := by
  cases hm with
  | sent hs hnot =>
      obtain ⟨sb, oh, done, fd, out, ds, fds, rfl, -⟩ := hs
      obtain ⟨hlog, hproxied, hfresh⟩ := log_sent (l := s.log) ds
      exact {
        log := hlog h.log
        plain := h.plain
        named := fun h1 => (h.named h1).congr rfl rfl fun _ _ => rfl
        fresh := fun h1 h2 => hfresh (h.fresh h1 h2)
        out := h.out
        stopped := h.stopped
        lone := fun hp => h.lone (hproxied.mp hp) }
  | cleared hs hd hk =>
      have huc := (hb.cleared hs hd hk).1
      obtain ⟨sb, oh, done, fd, out, ds, fds, rfl, -⟩ := hs
      exact {
        log := ⟨(fun hm => by cases hm), (log_sent ds).1 h.log⟩
        plain := rfl
        named := fun h1 => by cases h1
        fresh := fun _ _ _ hm => by cases hm
        out := fun h1 => absurd huc h1
        stopped := fun h1 => by cases h1
        lone := fun hm => by cases hm }

theorem invariant_apart {timeout : ℤ} {locations : List Location} :
    Invariant (serverConfig timeout locations) NoMixing Apart Calling where
  share p s g h := { h with lone := h.lone }
  poll p b s hb hin h := { h with
    lone := fun hp hd hnot huc => Bool.eq_false_of_not_eq_true fun hb' => by
      rw [h.stopped hd hnot] at hin
      exact absurd (hin hb') (by simp) }
  receive s d hb h := {
    log := allUnmixed_silent rfl h.log
    plain := h.plain
    named := fun hin => (h.named hin).congr rfl rfl fun k hk =>
      s.r.rb.put_mem_lt d (hk.trans_le hb.rb)
    fresh := fun h1 h2 => untouched_silent rfl (h.fresh h1 h2)
    out := h.out
    stopped := h.stopped
    lone := fun _ _ _ _ => rfl }
  call s e d hb hgood hrc hd h h' := { h'.toCore with
    upstream := fun hp hopen huc => by
      subst hd
      obtain ⟨hin, hleft⟩ := hgood hrc ((proxied_silent rfl).mp hp) hopen huc
      refine ⟨hin, fun n => Bool.eq_false_of_not_eq_true fun hn => ?_⟩
      rw [linesEnd_fuel hn (Nat.lt_succ_self _)] at hleft
      cases hleft
    first := fun _ _ _ hp hd hnot huc => by
      have := h.lone ((proxied_silent rfl).mp hp) hd hnot huc
      cases this
    body := fun _ _ _ hl => by cases hl }
  client _ _ hb h hm := calling_client hb h hm
  late s s' e d _ hl _ _ _ h hm := by
    have hnot : s.r.inHandler ≠ .headers := by rw [hl.2]; simp
    have hopen : s.r.bodyDone ≠ false := by rw [hl.1]; simp
    have hcore : ∀ r : Request, r.contentLength = s.r.contentLength → r.inHandler = s.r.inHandler →
        r.bodyDone = s.r.bodyDone → r.uc = s.r.uc →
        Calling ({ s.receive d with r := r }.note (.called s.r.inHandler s.r.state)) := by
      intro r h1 h2 h3 h4
      exact {
        log := allUnmixed_silent rfl h.log
        plain := h1.trans h.plain
        named := fun hin => absurd (h2.symm.trans hin) hnot
        fresh := fun _ hd => absurd (h3.symm.trans hd) hopen
        out := fun huc ho => h2.trans (h.out (h4 ▸ huc) ho)
        stopped := fun _ hin => absurd (h2.trans hl.2) hin
        upstream := fun _ hd => absurd (h3.symm.trans hd) hopen
        first := fun _ _ hlog => by cases hlog
        body := fun _ _ _ hlog => by
          have := (Action.called.inj (List.cons.inj hlog).1).1
          rw [hl.2] at this
          cases this }
    cases hm with
    | aborted => exact hcore _ rfl rfl rfl rfl
    | empty => exact hcore _ rfl rfl rfl rfl
  return_ s _ h := { h with lone := fun _ _ _ _ => rfl }
  pass p s s' e hb huc hout hgood h hm := by
    have hin := h.out huc hout
    have hopen : s.r.bodyDone ≠ false := fun hd => huc (hb.fresh hin hd).2.1
    have hcore : ∀ (d : List UInt8) (r : Request) (c u : Connection), r.contentLength = s.r.contentLength →
        r.inHandler = s.r.inHandler → r.bodyDone = s.r.bodyDone → r.uc = s.r.uc →
        Apart p { s with r := r, c := c, u := u, log := .forwarded d :: s.log } := by
      intro d r c u h1 h2 h3 h4
      exact {
        log := allUnmixed_silent rfl h.log
        plain := h1.trans h.plain
        named := fun h5 => absurd (hin.symm.trans (h2.symm.trans h5)) (by simp)
        fresh := fun _ hd => absurd (h3.symm.trans hd) hopen
        out := fun _ _ => h2.trans hin
        stopped := fun _ h5 => absurd (h2.trans hin) h5
        lone := fun _ _ h5 => absurd (h2.trans hin) h5 }
    cases hm with
    | done hsend => exact hcore _ _ _ _ rfl rfl rfl rfl
    | part hn => exact hcore _ _ _ _ rfl rfl rfl rfl
    | @failed n b hn hsend hb' =>
        obtain ⟨hpages, hup⟩ := hgood hsend
        have hcore' := core_errored (s := { s with
            r := { s.r with rb := { s.r.rb with begin := s.r.rb.begin + n } }
            log := .forwarded (s.r.rb.slice s.r.rb.begin (s.r.rb.begin + n)) :: s.log }) (b := b)
          (allUnmixed_page (allUnmixed_silent rfl h.log) (.inl rfl) hpages hup) h.plain
          (fun h5 => absurd (hin.symm.trans h5) (by simp)) h.out
        exact { hcore' with lone := fun _ _ _ h5 => absurd h5 huc }
  upstream p s s' e hb huc hgood h hm := by
    have hopen : s.r.inHandler = .requestLine → s.r.bodyDone ≠ false :=
      fun hin hd => huc (hb.fresh hin hd).2.1
    have hcore : ∀ (d : List UInt8) (c : Connection), c.evIn = s.c.evIn →
        (d ≠ [] → pages (current s.log) = []) →
        Core { s with r := { s.r with sb := s.r.sb.put d }, c := c, log := .relayed d :: s.log } := by
      intro d c hc hd
      exact {
        log := allUnmixed_relayed h.log hd
        plain := h.plain
        named := fun h5 => (h.named h5).congr rfl rfl fun _ _ => rfl
        fresh := fun h1 h2 => absurd h2 (hopen h1)
        out := h.out
        stopped := fun h1 h2 => hc.trans (h.stopped h1 h2) }
    obtain ⟨hmore, hfail⟩ := hgood
    cases hm with
    | @more d hrecv =>
        rw [hrecv] at hmore
        exact { hcore d _ rfl hmore with lone := fun _ _ _ h5 => absurd h5 huc }
    | @eof d hrecv =>
        rw [hrecv] at hmore
        exact { hcore d s.c rfl hmore with lone := fun _ _ _ h5 => absurd h5 huc }
    | @failed d b hrecv hb' =>
        rw [hrecv] at hmore hfail
        obtain ⟨rfl, hpages, hup⟩ := hfail rfl
        have h' := hcore [] s.c rfl hmore
        have hcore' := core_errored (b := b)
          (allUnmixed_page h'.log (.inl rfl) hpages ((List.append_nil _).trans hup))
          h'.plain h'.named h'.out
        exact { hcore' with lone := fun _ _ _ h5 => absurd h5 huc }
  response _ _ _ hb _ h hm := apart_response hb h hm
  close s _ _ _ h := {
    log := h.log
    plain := h.plain
    named := fun h1 => (h.named h1).congr rfl rfl fun _ _ => rfl
    fresh := h.fresh
    out := fun h1 => absurd rfl h1
    stopped := h.stopped
    lone := fun _ _ _ _ => rfl }

theorem apart_init {v : View} (h : v.Init) : Apart v.pend v.s := by
  obtain ⟨r₀, c, hr⟩ := h.request
  have hlog := h.log
  refine {
    log := by rw [hlog]; trivial
    plain := by rw [hr]; rfl
    named := fun hin => by rw [hr] at hin; cases hin
    fresh := fun _ _ a ha => by rw [hlog] at ha; cases ha
    out := fun huc => absurd (by rw [hr]; rfl) huc
    stopped := fun hd => by rw [hr] at hd; cases hd
    lone := fun hp => by rw [hlog] at hp; cases hp }

end moves

/-! ### Runs of the worker -/

/-- **Proxied responses are not mixed** in a run without a call that mixes one. -/
theorem proxied_unmixed {timeout : ℤ} {locations : List Location} {v : Server}
    (h : Server.Reached (serverConfig timeout locations)
      (Server.Meets (serverConfig timeout locations) NoMixing) v) {a : ConnAddr} (ha : v.Front a) :
    AllUnmixed (v.log (v.conns a).r) :=
  (Server.Reached.sessions invariant_apart (fun _ => apart_init) h a ha).log

/-- A request is forwarded, the upstream answers and closes, and the answer is sent. -/
def unmixedRun : List Label :=
  Server.opened ++
  Server.single 0 0 true { idleEnv with recvs := [.got (bytes "GET /p HTTP/1.1\r\n\r\n")] } ++
  Server.single 0 1 false { idleEnv with sends := [.sent 19] } ++
  Server.single 0 1 true { idleEnv with recvs := [.got (bytes "HTTP/1.1 200 OK\r\n\r\n")] } ++
  Server.single 0 1 true { idleEnv with recvs := [.got []] } ++ [.sweep 0] ++
  Server.single 0 0 false { idleEnv with sends := [.sent 10] }

theorem proxied_unmixed_answered :
    ∃ v, exec (Server.step (serverConfig 60 [⟨true, bytes "/p"⟩])) Server.boot unmixedRun = some v ∧
      Proxied (v.log (v.conns 0).r) ∧
      fromUpstream (v.log (v.conns 0).r) = bytes "HTTP/1.1 200 OK\r\n\r\n" ∧
      AllUnmixed (v.log (v.conns 0).r) := by
  have hrun : (exec (Server.step (serverConfig 60 [⟨true, bytes "/p"⟩])) Server.boot unmixedRun).any
      (fun v => decide (v.Front 0 ∧ Proxied (v.log (v.conns 0).r) ∧
        fromUpstream (v.log (v.conns 0).r) = bytes "HTTP/1.1 200 OK\r\n\r\n")) := by
    decide +kernel
  obtain ⟨v, hv, hend⟩ := exists_of_any hrun
  obtain ⟨hfront, hproxied, hup⟩ := of_decide_eq_true hend
  have hreach := Reach.exec (.start Server.boot_init)
    (show Transition.Along _ (Server.Meets (serverConfig 60 [⟨true, bytes "/p"⟩]) NoMixing) _
      unmixedRun by decide +kernel) hv
  exact ⟨v, hv, hproxied, hup, proxied_unmixed hreach hfront⟩

/-- A local response. -/
def Action.isBuilt : Action → Bool
  | built _ => true
  | _ => false

/-- The upstream closes before the headers end; then they end. -/
def lostUpstreamRun : List Label :=
  Server.opened ++
  Server.single 0 0 true { idleEnv with recvs := [.got (bytes "POST /p.html HTTP/1.1\r\nHost: a\r\n")] } ++
  Server.single 0 1 true { idleEnv with recvs := [.got []] } ++ [.sweep 0] ++
  Server.single 0 0 true { idleEnv with recvs := [.got (bytes "\r\n")] }

/-- A proxied request that lost its upstream: `sy_response_build` is called for it. -/
theorem lostUpstream_built :
    ¬ ∀ (timeout : ℤ) (locations : List Location) (v : Server),
      Server.Reached (serverConfig timeout locations) (fun _ _ => True) v →
      ∀ a, v.Front a → AllUnmixed (v.log (v.conns a).r) := by
  intro hall
  have hrun : (exec (Server.step (serverConfig 60 [⟨true, bytes "/p"⟩])) Server.boot
      lostUpstreamRun).any
      (fun v => decide (v.Front 0 ∧ Proxied (v.log (v.conns 0).r) ∧
        (current (v.log (v.conns 0).r)).any Action.isBuilt = true)) := by
    decide +kernel
  obtain ⟨v, hv, hend⟩ := exists_of_any hrun
  obtain ⟨hfront, hproxied, hbuilt⟩ := of_decide_eq_true hend
  have hreach := Reach.exec (.start Server.boot_init) (along_true _ _) hv
  obtain ⟨a, ha, hd⟩ := List.any_eq_true.mp hbuilt
  cases a with
  | built d => exact ((hall 60 _ v hreach 0 hfront).unmixed hproxied).1 d ha
  | _ => cases hd

end SyServer
