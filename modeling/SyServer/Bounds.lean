import SyServer.Alive
import SyServer.Contract
import SyServer.Deaths
import SyServer.HeaderLookup
import SyServer.Texts

/-! # The bounds of the buffers

Nothing that is received takes `end` over `limit`, and the response to a fresh request fits.  But a
page is also put behind the bytes that an upstream has sent, and so is the local response to a
request whose upstream has gone; where they do not fit, an `assert(margin > 0)` fails, or
`sy_buffer_print` has moved `end` over `limit`.

* `Roomy`: where a response is put into a buffer that is in use, it fits.
* `buffers_bounded`: then the buffers keep their bounds, and no such assertion fails. -/

namespace SyServer

open Relation (ReflTransGen)
open Transition (Reach exec along_true exists_of_any)

variable {cfg : Config}

/-! ### Names without a processor -/

/-- The header parser is within or behind a name, and nothing is forwarded among the headers. -/
structure Naming (_ : Bool) (s : Session) : Prop where
  named : s.r.inHandler = .headers → Named s.r.rb.begin s.r
  out : s.r.uc ≠ none → s.u.evOut = true → s.r.inHandler ≠ .headers

section naming

variable {s s' : Session}

theorem naming_uri (hst : s.r.state = .hlBegin) (huc : s.r.uc = none) (hm : UriMove s s') :
    Naming false s' := by
  cases hm with
  | notFound => exact ⟨fun _ => .of_begin hst, fun h => absurd huc h⟩
  | refused => exact ⟨fun _ => .of_begin hst, fun h => absurd rfl h⟩
  | proxied => exact ⟨fun _ => .of_begin hst, fun _ h => by cases h⟩
  | missing => exact ⟨fun _ => .of_begin hst, fun h => absurd huc h⟩
  | found => exact ⟨fun _ => .of_begin hst, fun h => absurd huc h⟩

theorem naming_client (hb : Base false s) (h : Naming false s) (hm : ClientMove cfg s s') :
    Naming false s' := by
  have hnot : ∀ {t : Session}, t.r.inHandler ≠ .headers → Naming false t := fun hin =>
    ⟨fun hin' => absurd hin' hin, fun _ _ => hin⟩
  have hheader : ∀ {rc r}, s.r.inHandler = .headers → parseHeaderLine s.r = .ok (rc, r) →
      Naming false { s with r := r } := by
    intro rc r hin hp
    have hnamed := ((h.named hin).parse hb.rb hp).1
    obtain ⟨_, _, _, _, rfl, -, -⟩ := parseHeaderLine_frame hp
    exact ⟨fun _ => hnamed, h.out⟩
  cases hm with
  | called => exact ⟨h.named, h.out⟩
  | lineMore hopen hin hp =>
      obtain ⟨_, _, _, _, _, _, rfl, -⟩ := parseRequestLine_frame hp
      apply hnot
      rw [show s.r.inHandler = .requestLine from hin]
      simp
  | lineError status hopen hin hp =>
      obtain ⟨_, _, _, _, _, _, rfl, -⟩ := parseRequestLine_frame hp
      apply hnot
      simp [Session.errored, hin]
  | @lineOk r s' k hopen hin hp huri =>
      have huc : r.uc = none := by
        obtain ⟨_, _, _, _, _, _, rfl, -⟩ := parseRequestLine_frame hp
        exact (hb.fresh hin hopen).2.1
      exact naming_uri (s := { s with r := { r with keepAlive := k, inHandler := .headers } })
        (parseRequestLine_done hp).1 huc huri
  | headersMore hin hp => exact hheader hin hp
  | header hin hp => exact hheader hin hp
  | headerSet hs k te n hin hp =>
      have h' := hheader hin hp
      exact ⟨fun hin' => (h'.named hin').congr rfl rfl fun _ _ => rfl, h'.out⟩
  | headerError hs status hin hp =>
      have h' := hheader hin hp
      exact ⟨fun hin' => (h'.named hin').congr rfl rfl fun _ _ => rfl, h'.out⟩
  | headersEnd => exact hnot (by simp)
  | bodyMore n hin => exact hnot (by simp [rbRewind, hin])
  | bodyRelayed => exact hnot (by simp [rbRewind])
  | bodyLocal => exact hnot (by simp)

theorem invariant_naming (cfg : Config) : Invariant cfg (fun _ _ => True) Naming (Naming false) where
  share _ _ _ h := ⟨h.named, h.out⟩
  poll _ _ _ _ _ h := ⟨h.named, h.out⟩
  receive s d hb h := ⟨fun hin => (h.named hin).congr rfl rfl fun k hk =>
    s.r.rb.put_mem_lt d (hk.trans_le hb.rb), h.out⟩
  call _ _ _ _ _ _ _ _ h := h
  client _ _ hb h hm := naming_client hb h hm
  late s s' e d _ hl _ _ _ h hm := by
    have hin : s.r.inHandler ≠ .headers := by rw [hl.2]; simp
    cases hm <;> exact ⟨fun hin' => absurd hin' hin, fun _ _ => hin⟩
  return_ _ _ h := h
  pass p s s' e _ huc hout _ h hm := by
    have hin := h.out huc hout
    cases hm <;> exact ⟨fun hin' => absurd hin' hin, fun _ _ => hin⟩
  upstream p s s' e _ _ _ h hm := by
    cases hm with
    | more => exact ⟨fun hin => (h.named hin).congr rfl rfl fun _ _ => rfl, h.out⟩
    | eof => exact ⟨fun hin => (h.named hin).congr rfl rfl fun _ _ => rfl, h.out⟩
    | failed => exact ⟨fun hin => (h.named hin).congr rfl rfl fun _ _ => rfl, h.out⟩
  response p s s' _ _ h hm := by
    cases hm with
    | sent hs hnot =>
        obtain ⟨sb, oh, done, fd, out, ds, fds, rfl, -⟩ := hs
        exact ⟨fun hin => (h.named hin).congr rfl rfl fun _ _ => rfl, h.out⟩
    | cleared =>
        refine ⟨fun hin => (by cases hin), fun _ _ => ?_⟩
        simp [Session.clear, Session.note, requestClear, requestInit]
  close _ _ _ _ h := ⟨fun hin => (h.named hin).congr rfl rfl fun _ _ => rfl, fun huc => absurd rfl huc⟩

end naming

theorem naming_init {w : View} (h : w.Init) : Naming w.pend w.s := by
  obtain ⟨r₀, c, hr⟩ := h.request
  refine ⟨fun hin => ?_, fun _ _ => ?_⟩
  · rw [hr] at hin
    cases hin
  · rw [hr]
    simp [requestInit]

theorem parseLines_frame (n : ℕ) (r : Request) :
    ∃ name value st b, (parseLines n r).2 =
      { r with headerName := name, headerValue := value, state := st, rb := b } ∧
        b.end_ = r.rb.end_ := by
  induction n generalizing r with
  | zero => exact ⟨_, _, _, _, rfl, rfl⟩
  | succ n ih =>
      unfold parseLines
      cases hp : parseHeaderLine r with
      | error f => exact ⟨_, _, _, _, rfl, rfl⟩
      | ok p =>
          obtain ⟨rc, r₁⟩ := p
          obtain ⟨name, value, st, b, rfl, hb, -⟩ := parseHeaderLine_frame hp
          cases rc with
          | ok =>
              obtain ⟨name', value', st', b', h1, h2⟩ :=
                ih { r with headerName := name, headerValue := value, state := st, rb := b }
              exact ⟨name', value', st', b', h1, h2.trans hb⟩
          | _ => exact ⟨name, value, st, b, rfl, hb⟩

/-- With the real table the header loop only parses. -/
theorem headersLoop_parses {e : Env} {n : ℕ} {s : Session} (hcfg : cfg.headerGet = headerMapGet)
    (hb : s.r.rb.begin ≤ s.r.rb.end_) (hready : HeaderReady s.r) (hnamed : Named s.r.rb.begin s.r)
    (hn : s.r.rb.size < n) :
    headersLoop cfg e n s = .ok (if linesEnd n s.r then
      (.ok, { s with r := { (parseLines n s.r).2 with inHandler := .body } }.note
        (.headersEnd (parseLines n s.r).2.rb.begin))
      else (.again, { s with r := (parseLines n s.r).2 })) := by
  induction n generalizing s with
  | zero => omega
  | succ n ih =>
      obtain ⟨rc, r, hp, hready'⟩ := parseHeaderLine_ready hready
      obtain ⟨hnamed', hends⟩ := hnamed.parse hb hp
      have hb' : r.rb.begin ≤ r.rb.end_ := by
        obtain ⟨_, _, _, _, rfl, h1, h2⟩ := parseHeaderLine_frame hp
        exact (h2 hb).trans h1.ge
      have hrc : rc = .again ∨ rc = .ok ∨ rc = .emptyLine := by
        rcases parseHeaderLine_cases hp with ⟨h, -⟩ | ⟨k, r₁, r₂, h, -⟩
        · exact .inl h
        · split_ifs at h
          · exact .inr (.inr h)
          · exact .inr (.inl h)
      unfold linesEnd parseLines
      rw [hp]
      rcases hrc with rfl | rfl | rfl
      · rw [headersLoop, hp]
        rfl
      · have hmiss : headerMapGet r.mem r.headerName = none := headerMapGet_none (hends rfl)
        have hsize := parseHeaderLine_size hp
        rw [headersLoop_line hp, hcfg, hmiss]
        exact ih (s := { s with r := r }) hb' hready' hnamed' (by show r.rb.size < n; omega)
      · rw [headersLoop, hp]
        rfl

/-! ### Responses that fit -/

/-- The page fits into `sb`, but for a part of its tail. -/
def PageRoom (date : List UInt8) (minor status : ℕ) (sb : Buffer) : Prop :=
  sb.end_ + (pageText date minor status).length < BUF_SIZE

/-- The head of the local response fits into `sb`, but for a part of the last line end. -/
def LocalRoom (date : List UInt8) (r : Request) : Prop :=
  r.sb.end_ + (localText date r).length < BUF_SIZE

instance (date : List UInt8) (minor status : ℕ) (sb : Buffer) : Decidable (PageRoom date minor status sb) :=
  inferInstanceAs (Decidable (_ < _))

instance (date : List UInt8) (r : Request) : Decidable (LocalRoom date r) :=
  inferInstanceAs (Decidable (_ < _))

/-- Where a call of `sy_handle_request` comes to the local response of a request that it did not
begin, the response fits. -/
def LocalFits (e : Env) (s : Session) : Prop :=
  (s.r.inHandler = .headers → linesEnd (s.r.rb.size + 1) s.r = true → s.r.bodyDone = false →
    s.r.uc = none → LocalRoom e.date (callLines s.r).2) ∧
      (s.r.inHandler = .body → s.r.uc = none → LocalRoom e.date s.r)

instance (e : Env) (s : Session) : Decidable (LocalFits e s) :=
  inferInstanceAs (Decidable ((_ = _ → _ = true → _ = false → _ = none → LocalRoom _ _) ∧
    (_ = _ → _ = none → LocalRoom _ _)))

/-- The date is that of the C locale, and a response that is put into a buffer in use fits. -/
def Roomy (v : View) : SessionEvent → Prop
  | .request e => e.date.length ≤ DATE_LENGTH ∧ ((v.s.r.rb.recv e.recvs).1 = .again →
      LocalFits e (v.s.receive (v.s.r.rb.recv e.recvs).2.2))
  | .upstream e => (v.s.r.sb.recv e.recvs).1 = .error →
      PageRoom e.date v.s.r.version.minor 503 (v.s.r.sb.recv e.recvs).2.1
  | .pass e => (v.s.r.rb.send e.sends).1 = .error → PageRoom e.date v.s.r.version.minor 503 v.s.r.sb
  | _ => True

instance (v : View) : ∀ ev, Decidable (Roomy v ev)
  | .request _ => inferInstanceAs (Decidable (_ ≤ _ ∧ (_ = _ → LocalFits _ _)))
  | .upstream _ | .pass _ => inferInstanceAs (Decidable (_ = _ → PageRoom _ _ _ _))
  | .poll _ | .share _ | .close | .response _ => .isTrue trivial

/-- `assert(margin > 0)`. -/
def Fault.margin : Fault → Bool
  | appendMargin | printMargin => true
  | _ => false

/-- The buffers are within their bounds, and that of a fresh request is empty. -/
structure Bounded (_ : Bool) (s : Session) : Prop where
  rb : s.r.rb.end_ ≤ BUF_SIZE
  sb : s.r.sb.end_ ≤ BUF_SIZE
  fresh : s.r.inHandler = .requestLine → s.r.bodyDone = false →
    s.r.sb.end_ = 0 ∧ s.r.resourceLen = 0

section call

variable {e : Env} {s s' : Session} {rc : Rc}

theorem Bounded.of_busy {p : Bool} (hrb : s.r.rb.end_ ≤ BUF_SIZE) (hsb : s.r.sb.end_ ≤ BUF_SIZE)
    (hbusy : s.r.inHandler = .requestLine → s.r.bodyDone = true) : Bounded p s where
  rb := hrb
  sb := hsb
  fresh hin hd := absurd ((hbusy hin).symm.trans hd) (by simp)

/-- A page that fits. -/
theorem responseBuildErr_bounded (date : List UInt8) {status : ℕ} (h : status ∈ errorStatuses)
    (hrb : s.r.rb.end_ ≤ BUF_SIZE) (hroom : PageRoom date s.r.version.minor status s.r.sb) :
    ∃ s', responseBuildErr date status s = .ok (.ok, s') ∧ s'.r.bodyDone = true ∧
      ∀ p, Bounded p s' := by
  obtain ⟨b, h1, h2⟩ := responseBuildErr_room h hroom
  refine ⟨_, h1, rfl, fun p => ⟨hrb, ?_, fun _ hd => by cases hd⟩⟩
  unfold PageRoom at hroom
  show b.end_ ≤ BUF_SIZE
  rw [h2.end_, List.length_append, List.length_take]
  omega

/-- A page for a fresh request. -/
theorem pageRoom_fresh {date : List UInt8} {status : ℕ} (hdate : date.length ≤ DATE_LENGTH)
    (h : status ∈ errorStatuses) (hsb : s.r.sb.end_ = 0) : PageRoom date s.r.version.minor status s.r.sb := by
  have hlen := pageText_length hdate h s.r.version.minor
  have hsize : BUF_SIZE = 2048 := rfl
  unfold PageRoom
  omega

/-- The body handler where the local response fits. -/
theorem requestHandleBody_bounded (hin : s.r.inHandler = .body) (hrb : s.r.rb.end_ ≤ BUF_SIZE)
    (hsb : s.r.sb.end_ ≤ BUF_SIZE) (hroom : s.r.uc = none → LocalRoom e.date s.r) :
    (∃ f ∈ [Fault.bodyEncoding, .nullUpstream, .statusRepr, .wildRead], requestHandleBody e s = .error f) ∨
      ∃ rc s', requestHandleBody e s = .ok (rc, s') ∧ Bounded false s' ∧
        (rc = .ok → s'.r.bodyDone = true) := by
  by_cases hte : s.r.tEncoding = .identity
  swap
  · exact .inl ⟨.bodyEncoding, by decide, if_pos hte⟩
  obtain ⟨n, hr, hrc⟩ := parseRequestBodyIdentity_frame s.r
  obtain ⟨err, r, hp⟩ : ∃ err r, parseRequestBodyIdentity s.r = (err, r) := ⟨_, _, rfl⟩
  rw [hp] at hr hrc
  dsimp only at hr hrc
  subst hr
  unfold requestHandleBody
  rw [if_neg (not_not.mpr hte), hp]
  have hout : ∀ t : Session, enableUpstreamOut t = .error .nullUpstream ∨
      enableUpstreamOut t = .ok { t with u := enableOut t.u } := by
    intro t
    unfold enableUpstreamOut
    split_ifs
    · exact .inl rfl
    · exact .inr rfl
  rcases hrc with rfl | ⟨rfl, -⟩
  · dsimp only [bodyRespond]
    split_ifs with huc
    · rcases responseBuild_room e.date (r := { s.r with bodyReceived := n }) (hroom huc) with
        h | ⟨h, -⟩ | ⟨b, fd, h, hw⟩
      · left
        rw [h]
        exact ⟨.statusRepr, by decide, rfl⟩
      · left
        rw [h]
        exact ⟨.wildRead, by decide, rfl⟩
      · right
        rw [h]
        refine ⟨_, _, rfl, ⟨Nat.zero_le _, ?_, fun _ hd => by cases hd⟩, fun _ => rfl⟩
        show b.end_ ≤ BUF_SIZE
        have hroom := hroom huc
        unfold LocalRoom at hroom
        rw [hw.end_, List.length_append, List.length_take]
        show s.r.sb.end_ + ((localText e.date s.r).length +
          min (BUF_SIZE - (s.r.sb.end_ + (localText e.date s.r).length)) _) ≤ BUF_SIZE
        omega
    · rcases hout { s with r := rbRewind { s.r with bodyReceived := n }, c := disableIn s.c } with h | h
      · exact .inl ⟨.nullUpstream, by decide, by rw [h]; rfl⟩
      · right
        rw [h]
        exact ⟨_, _, rfl, ⟨hrb, hsb, fun _ hd => by cases hd⟩, fun _ => rfl⟩
  · rcases hout { s with r := rbRewind { s.r with bodyReceived := n }, c := disableIn s.c } with h | h
    · left
      refine ⟨.nullUpstream, by decide, ?_⟩
      dsimp only
      rw [h]
      rfl
    · right
      dsimp only
      rw [h]
      refine ⟨_, _, rfl, ⟨hrb, hsb, fun hin' => ?_⟩, fun hrc => by cases hrc⟩
      exact absurd (hin.symm.trans hin') (by simp)

theorem requestLoop_body_bounded {n : ℕ} (hin : s.r.inHandler = .body) (hrb : s.r.rb.end_ ≤ BUF_SIZE)
    (hsb : s.r.sb.end_ ≤ BUF_SIZE) (hroom : s.r.uc = none → LocalRoom e.date s.r) :
    Safely Fault.margin (Bounded false) (requestLoop cfg e (n + 1) s) := by
  have hcall := requestHandleBody_bounded (s := s.note (.called .body s.r.state)) hin hrb hsb hroom
  have herror : ∀ g ∈ [Fault.bodyEncoding, .nullUpstream, .statusRepr, .wildRead], g.margin = false := by decide
  apply requestLoop_round
  · intro f hf
    rw [hin] at hf
    change requestHandleBody e _ = _ at hf
    rcases hcall with ⟨g, hg, h⟩ | ⟨rc, s', h, -⟩ <;> rw [h] at hf <;> cases hf
    exact safely_error herror hg _
  · intro rc s' hf _
    rw [hin] at hf
    change requestHandleBody e _ = _ at hf
    rcases hcall with ⟨g, hg, h⟩ | ⟨rc, s', h, hb, -⟩ <;> rw [h] at hf <;> cases hf
    exact safely_ok hb _
  · intro s' hf hd
    rw [hin] at hf
    change requestHandleBody e _ = _ at hf
    rcases hcall with ⟨g, hg, h⟩ | ⟨rc, s', h, -, hdone⟩ <;> rw [h] at hf <;> cases hf
    rw [hdone rfl] at hd
    cases hd

theorem requestLoop_headers_bounded {n : ℕ} (hcfg : cfg.headerGet = headerMapGet)
    (hin : s.r.inHandler = .headers) (hb : s.r.rb.begin ≤ s.r.rb.end_) (hready : HeaderReady s.r)
    (hnamed : Named s.r.rb.begin s.r) (hrb : s.r.rb.end_ ≤ BUF_SIZE) (hsb : s.r.sb.end_ ≤ BUF_SIZE)
    (hroom : linesEnd (s.r.rb.size + 1) s.r = true → s.r.bodyDone = false → s.r.uc = none →
      LocalRoom e.date (callLines s.r).2) :
    Safely Fault.margin (Bounded false) (requestLoop cfg e (n + 2) s) := by
  have hrun := headersLoop_parses (e := e) (s := s.note (.called .headers s.r.state)) hcfg hb hready
    hnamed (Nat.lt_succ_self _)
  change requestHandleHeaders cfg e _ = .ok (if linesEnd (s.r.rb.size + 1) s.r then
    (.ok, { s.note _ with r := { (callLines s.r).2 with inHandler := .body } }.note _) else
      (.again, { s.note _ with r := (callLines s.r).2 })) at hrun
  obtain ⟨name, value, st, b, hframe, hend⟩ := parseLines_frame (s.r.rb.size + 1) s.r
  change (callLines s.r).2 = _ at hframe
  apply requestLoop_round
  · intro f hf
    rw [hin] at hf
    change requestHandleHeaders cfg e _ = _ at hf
    rw [hrun] at hf
    cases hf
  · intro rc s' h _
    rw [hin] at h
    change requestHandleHeaders cfg e _ = _ at h
    rw [hrun, hframe] at h
    apply safely_ok
    split_ifs at h
    · cases h
      exact ⟨hend.trans_le hrb, hsb, fun hin' => by cases hin'⟩
    · cases h
      refine ⟨hend.trans_le hrb, hsb, fun hin' => ?_⟩
      exact absurd (hin.symm.trans hin') (by simp)
  · intro s' h hd
    rw [hin] at h
    change requestHandleHeaders cfg e _ = _ at h
    rw [hrun] at h
    split_ifs at h with hlines <;> cases h
    rw [hframe] at hd hroom ⊢
    exact requestLoop_body_bounded rfl (hend.trans_le hrb) hsb fun huc => hroom hlines hd huc

/-- What the handler of the request line leaves of a fresh request: while no page is put, `sb` is
empty and the length of the file an `int`. -/
def LineOutcome (x : Except Fault (Rc × Session)) : Prop :=
  (∃ f ∈ [Fault.wildRead, .passLocation, .heapEmpty], x = .error f) ∨
    ∃ rc s', x = .ok (rc, s') ∧ Bounded false s' ∧ (s'.r.bodyDone = false →
      s'.r.sb.end_ = 0 ∧ -2 ^ 31 ≤ s'.r.resourceLen ∧ s'.r.resourceLen < 2 ^ 31)

/-- The handler of the request line, for a fresh request. -/
theorem requestHandleRequestLine_bounded (hdate : e.date.length ≤ DATE_LENGTH)
    (hin : s.r.inHandler = .requestLine) (hopen : s.r.bodyDone = false) (hready : LineReady s.r)
    (hb : Bounded false s) : LineOutcome (requestHandleRequestLine cfg e s) := by
  obtain ⟨hsb, hlen⟩ := hb.fresh hin hopen
  obtain ⟨rc, r, hp, -⟩ := parseRequestLine_ready hready
  have hend : r.rb.end_ = s.r.rb.end_ := by
    obtain ⟨_, _, _, _, _, _, rfl, -⟩ := parseRequestLine_frame hp
    rfl
  have hsb' : r.sb.end_ = 0 := by
    obtain ⟨_, _, _, _, _, _, rfl, -⟩ := parseRequestLine_frame hp
    exact hsb
  have hopen' : r.bodyDone = false := by
    obtain ⟨_, _, _, _, _, _, rfl, -⟩ := parseRequestLine_frame hp
    exact hopen
  have hlen' : r.resourceLen = 0 := by
    obtain ⟨_, _, _, _, _, _, rfl, -⟩ := parseRequestLine_frame hp
    exact hlen
  have hrb : r.rb.end_ ≤ BUF_SIZE := by
    rw [hend]
    exact hb.rb
  -- a page for this request
  have hpage : ∀ (t : Session) (status : ℕ), status ∈ errorStatuses → t.r.sb.end_ = 0 →
      t.r.rb.end_ ≤ BUF_SIZE → LineOutcome (responseBuildErr e.date status t) := by
    intro t status hstatus ht hrb
    obtain ⟨s', h1, hd, h2⟩ := responseBuildErr_bounded e.date hstatus hrb (pageRoom_fresh hdate hstatus ht)
    exact .inr ⟨_, s', h1, h2 false, fun hd' => absurd (hd.symm.trans hd') (by simp)⟩
  unfold requestHandleRequestLine
  rw [hp]
  show LineOutcome (if rc = .again then _ else _)
  split_ifs with hagain hok hversion
  · right
    refine ⟨_, _, rfl, ⟨hrb, hsb'.trans_le (Nat.zero_le _), fun _ _ => ⟨hsb', hlen'⟩⟩, fun _ => ?_⟩
    rw [show ({ s with r := r } : Session).r = r from rfl, hlen']
    exact ⟨hsb', by decide, by decide⟩
  · exact hpage _ 400 (by decide) hsb' hrb
  · exact hpage _ 505 (by decide) hsb' hrb
  · apply requestHandleUri_cases
    · exact fun f hf => .inl ⟨f, hf, rfl⟩
    · intro status hstatus t ht
      have hall : ∀ status ∈ [403, 404, 503], status ∈ errorStatuses := by decide
      apply hpage t status (hall status hstatus)
      · rw [ht.sb]
        exact hsb'
      · rw [ht.rb]
        exact hrb
    · intro t ht
      right
      refine ⟨_, _, rfl, ⟨?_, ?_, fun hin' => ?_⟩, fun _ => ⟨?_, ?_⟩⟩
      · rw [ht.rb]
        exact hrb
      · rw [ht.sb]
        exact hsb'.trans_le (Nat.zero_le _)
      · rw [ht.inHandler] at hin'
        cases hin'
      · rw [ht.sb]
        exact hsb'
      · rcases ht.resource with h | ⟨n, h⟩
        · rw [h, show _ = (0 : ℤ) from hlen']
          decide
        · rw [h]
          exact wrap32_range n

theorem requestLoop_line_bounded {n : ℕ} (hcfg : cfg.headerGet = headerMapGet)
    (hdate : e.date.length ≤ DATE_LENGTH) (hin : s.r.inHandler = .requestLine)
    (hopen : s.r.bodyDone = false) (hb : Base false s) (hk : Bounded false s) :
    Safely Fault.margin (Bounded false) (requestLoop cfg e (n + 3) s) := by
  have hready := (hb.fresh hin hopen).1
  have hlate : ¬ s.Late := fun hl => absurd (hl.1.symm.trans hopen) (by simp)
  have hcall := @ClientMove.called cfg s hlate
  rw [hin] at hcall
  have hb' := base_client hb hcall
  have hn : Naming false (s.note (.called .requestLine s.r.state)) := by
    refine ⟨fun hin' => ?_, fun _ _ => ?_⟩
    · exact absurd (hin.symm.trans hin') (by simp)
    · rw [show (s.note (.called .requestLine s.r.state)).r.inHandler = .requestLine from hin]
      simp
  have houtcome : LineOutcome (requestHandleRequestLine cfg e (s.note (.called .requestLine s.r.state))) :=
    requestHandleRequestLine_bounded hdate hin hopen hready ⟨hk.rb, hk.sb, hk.fresh⟩
  have herror : ∀ g ∈ [Fault.wildRead, .passLocation, .heapEmpty], g.margin = false := by decide
  apply requestLoop_round
  · intro f hf
    rw [hin] at hf
    change requestHandleRequestLine cfg e _ = _ at hf
    rcases houtcome with ⟨g, hg, h⟩ | ⟨rc, s', h, -⟩ <;> rw [h] at hf <;> cases hf
    exact safely_error herror hg _
  · intro rc s' hf _
    rw [hin] at hf
    change requestHandleRequestLine cfg e _ = _ at hf
    rcases houtcome with ⟨g, hg, h⟩ | ⟨rc, s', h, hbound, -⟩ <;> rw [h] at hf <;> cases hf
    exact safely_ok hbound _
  · intro s' hf hd
    rw [hin] at hf
    change requestHandleRequestLine cfg e _ = _ at hf
    have hmove := requestHandleRequestLine_move (s := s.note _) hopen hin hf
    have hin' : s'.r.inHandler = .headers := by
      rcases requestHandleRequestLine_ok hf with hd' | hin'
      · rw [hd] at hd'
        cases hd'
      · exact hin'
    have hb'' := base_client hb' hmove
    have hn' := naming_client hb' hn hmove
    rcases houtcome with ⟨g, hg, h⟩ | ⟨rc, s'', h, hbound, hfresh⟩ <;> rw [h] at hf <;> cases hf
    obtain ⟨hsb, hlo, hhi⟩ := hfresh hd
    refine requestLoop_headers_bounded hcfg hin' hb''.rb (hb''.headers (by rw [hin']; simp))
      (hn'.named hin') hbound.rb hbound.sb fun _ _ _ => ?_
    -- the local response to a fresh request
    obtain ⟨name, value, st, b, hframe, -⟩ := parseLines_frame (s'.r.rb.size + 1) s'.r
    change (callLines s'.r).2 = _ at hframe
    have hlen := localText_length (r := (callLines s'.r).2) hdate (by rw [hframe]; exact hlo)
      (by rw [hframe]; exact hhi)
    have hsize : BUF_SIZE = 2048 := rfl
    have hsb' : (callLines s'.r).2.sb.end_ = 0 := by
      rw [hframe]
      exact hsb
    unfold LocalRoom
    omega

/-- **A call of `sy_handle_request`** where its responses fit. -/
theorem handleRequest_bounded (hcfg : cfg.headerGet = headerMapGet) (hb : Base true s)
    (hn : Naming true s) (hk : Bounded true s) (hgood : Roomy ⟨true, s⟩ (.request e)) :
    Safely Fault.margin (Bounded false) (handleRequest cfg e s) := by
  obtain ⟨rc, d, hrecv, -, hle⟩ := Buffer.recv_spec e.recvs s.r.rb
  have hk' : Bounded false (s.receive d) := ⟨hle hk.rb, hk.sb, hk.fresh⟩
  unfold handleRequest
  dsimp only [Roomy] at hgood
  rw [hrecv] at hgood ⊢
  dsimp only at hgood ⊢
  split_ifs with hrc
  · exact safely_ok hk' _
  obtain ⟨hdate, hgood⟩ := hgood
  obtain ⟨hheaders, hbody⟩ := hgood (not_not.mp hrc)
  change Safely _ _ (requestLoop cfg e 3 (s.receive d))
  have hb' := base_receive hb d
  cases hin : s.r.inHandler with
  | requestLine =>
      cases hd : s.r.bodyDone with
      | true =>
          refine requestLoop_late_safely hin (hb.late_pending ⟨hd, hin⟩) rfl ⟨hk'.rb, hk'.sb, fun _ hd' => ?_⟩
          exact absurd (hd.symm.trans hd') (by simp)
      | false => exact requestLoop_line_bounded hcfg hdate hin hd hb' hk'
  | headers =>
      have hn' := (invariant_naming cfg).receive s d hb hn
      exact requestLoop_headers_bounded hcfg hin hb'.rb
        (hb'.headers (by rw [show (s.receive d).r.inHandler = .headers from hin]; simp)) (hn'.named hin)
        hk'.rb hk'.sb (hheaders hin)
  | body => exact requestLoop_body_bounded hin hk'.rb hk'.sb (hbody hin)

/-- `sy_handle_upstream` where its page fits. -/
theorem handleUpstream_bounded {p : Bool} (hk : Bounded p s) (hgood : Roomy ⟨p, s⟩ (.upstream e)) :
    ∃ rc s', handleUpstream e s = .ok (rc, s') ∧
      ((s.r.inHandler = .requestLine → s.r.bodyDone = true) → Bounded p s') := by
  obtain ⟨rc, d, hrecv, -, hle⟩ := Buffer.recv_spec e.recvs s.r.sb
  dsimp only [Roomy] at hgood
  unfold handleUpstream
  rw [hrecv] at hgood ⊢
  dsimp only at hgood ⊢
  split_ifs with hok herr
  · exact ⟨_, _, rfl, fun hbusy => .of_busy hk.rb (hle hk.sb) hbusy⟩
  · obtain ⟨s', h1, -, h2⟩ := responseBuildErr_bounded
      (s := { s with r := { s.r with sb := s.r.sb.put d } }.note (.relayed d)) e.date
      (show 503 ∈ errorStatuses by decide) hk.rb
      (by dsimp only [Session.note]; exact hgood herr)
    refine ⟨.error, s', ?_, fun _ => h2 p⟩
    rw [h1]
    rfl
  · exact ⟨_, _, rfl, fun hbusy => .of_busy hk.rb (hle hk.sb) hbusy⟩

/-- `sy_handle_pass` where its page fits. -/
theorem handlePass_bounded {p : Bool} (hb : s.r.rb.begin ≤ s.r.rb.end_) (hk : Bounded p s)
    (hgood : Roomy ⟨p, s⟩ (.pass e)) :
    ∃ rc s', handlePass e s = .ok (rc, s') ∧
      ((s.r.inHandler = .requestLine → s.r.bodyDone = true) → Bounded p s') := by
  obtain ⟨rc, n, hn, hsend, hrc⟩ := Buffer.send_spec e.sends s.r.rb hb
  dsimp only [Roomy] at hgood
  unfold handlePass
  rw [hsend] at hgood ⊢
  dsimp only at hgood ⊢
  split_ifs with hok herr
  · exact ⟨_, _, rfl, fun hbusy => .of_busy (Nat.zero_le _) hk.sb hbusy⟩
  · obtain ⟨s', h1, -, h2⟩ := responseBuildErr_bounded
      (s := { s with r := { s.r with rb := { s.r.rb with begin := s.r.rb.begin + n } } }.note
        (.forwarded (s.r.rb.slice s.r.rb.begin (s.r.rb.begin + n)))) e.date
      (show 503 ∈ errorStatuses by decide) hk.rb
      (by dsimp only [Session.note]; exact hgood herr)
    refine ⟨rc, s', ?_, fun _ => h2 p⟩
    rw [h1]
    rfl
  · exact ⟨_, _, rfl, fun hbusy => .of_busy hk.rb hk.sb hbusy⟩

/-- A response that is sent takes nothing into `sb`. -/
theorem handleResponse_sb (hb : s.r.sb.begin ≤ s.r.sb.end_) (h : handleResponse e s = .ok (rc, s')) :
    s'.r.sb.end_ ≤ s.r.sb.end_ := by
  have hsend : ∀ {t t' : Session} {rc : Rc}, t.r.sb.begin ≤ t.r.sb.end_ →
      t.r.outHandler.run e t = .ok (rc, t') →
        t'.r.sb.end_ ≤ t.r.sb.end_ ∧ t'.r.sb.begin ≤ t'.r.sb.end_ := by
    intro t t' rc hb h
    cases ho : t.r.outHandler <;> rw [ho] at h
    case buffer =>
        obtain ⟨rc', n, hn, hsend, -⟩ := Buffer.send_spec e.sends t.r.sb hb
        have hsent : ∀ u : Session, (responseBufferSent u).2.r.sb = u.r.sb := by
          intro u
          unfold responseBufferSent
          split_ifs <;> rfl
        have he : sendResponseBuffer e t = (rc, t') := Except.ok.inj h
        rw [show t' = (sendResponseBuffer e t).2 by rw [he]]
        unfold sendResponseBuffer
        rw [hsend]
        dsimp only
        split_ifs
        · rw [hsent]
          exact ⟨Nat.zero_le _, le_rfl⟩
        · exact ⟨le_rfl, hn⟩
        · exact ⟨le_rfl, hn⟩
    case file =>
        unfold OutHandler.run sendResponseFile at h
        dsimp only at h
        split_ifs at h <;> cases h <;> exact ⟨le_rfl, hb⟩
  have hloop : ∀ (n : ℕ) {t t' : Session} {rc : Rc}, t.r.sb.begin ≤ t.r.sb.end_ →
      responseLoop e n t = .ok (rc, t') → t'.r.sb.end_ ≤ t.r.sb.end_ := by
    intro n
    induction n with
    | zero =>
        intro t t' rc _ h
        cases h
        exact le_rfl
    | succ n ih =>
        intro t t' rc hb h
        obtain ⟨⟨err, t₁⟩, h1, h2⟩ := bind_ok h
        obtain ⟨h3, h4⟩ := hsend hb h1
        dsimp only at h2
        split_ifs at h2
        · exact (ih h4 h2).trans h3
        · cases h2
          exact h3
  obtain ⟨⟨err, t⟩, h1, h2⟩ := bind_ok h
  have h3 := hloop 2 hb h1
  dsimp only at h2
  split_ifs at h2 <;> cases h2
  · exact Nat.zero_le _
  · exact h3
  · exact h3

/-- The condition on `sy_handle_upstream` leaves out no call that returns. -/
theorem roomy_of_upstream {p : Bool} (hdate : e.date.length ≤ DATE_LENGTH)
    (h : handleUpstream e s = .ok (rc, s')) : Roomy ⟨p, s⟩ (.upstream e) := by
  intro herr
  dsimp only at herr ⊢
  unfold handleUpstream at h
  obtain ⟨rc', b, d, hrecv⟩ : ∃ rc' b d, s.r.sb.recv e.recvs = (rc', b, d) := ⟨_, _, _, rfl⟩
  rw [hrecv] at h herr ⊢
  dsimp only at h herr ⊢
  subst herr
  rw [if_neg (by simp), if_pos rfl] at h
  obtain ⟨⟨_, s₁⟩, h1, -⟩ := bind_ok h
  have hneeds := responseBuildErr_needs hdate (by decide) h1
  exact hneeds

/-- Nor does that on `sy_handle_pass`. -/
theorem roomy_of_pass {p : Bool} (hdate : e.date.length ≤ DATE_LENGTH)
    (h : handlePass e s = .ok (rc, s')) : Roomy ⟨p, s⟩ (.pass e) := by
  intro herr
  dsimp only at herr ⊢
  unfold handlePass at h
  obtain ⟨rc', b, d, hsend⟩ : ∃ rc' b d, s.r.rb.send e.sends = (rc', b, d) := ⟨_, _, _, rfl⟩
  rw [hsend] at h herr
  dsimp only at h herr
  subst herr
  rw [if_neg (by simp), if_pos rfl] at h
  obtain ⟨⟨_, s₁⟩, h1, -⟩ := bind_ok h
  have hneeds := responseBuildErr_needs (s := Session.note { s with r := { s.r with rb := b } } (.forwarded d))
    hdate (by decide) h1
  dsimp only [Session.note] at hneeds
  exact hneeds

/-- A body handler that returns without an upstream has put the local response. -/
theorem localRoom_of_body (hdate : e.date.length ≤ DATE_LENGTH)
    (hstatus : ¬(s.r.status = 304 ∨ s.r.status = 100)) (huc : s.r.uc = none)
    (h : requestHandleBody e s = .ok (rc, s')) : LocalRoom e.date s.r := by
  unfold requestHandleBody at h
  split_ifs at h
  obtain ⟨n, hr, hrc⟩ := parseRequestBodyIdentity_frame s.r
  obtain ⟨err, r, hp⟩ : ∃ err r, parseRequestBodyIdentity s.r = (err, r) := ⟨_, _, rfl⟩
  rw [hp] at hr hrc h
  dsimp only at hr hrc h
  subst hr
  rcases hrc with rfl | ⟨rfl, -⟩
  · obtain ⟨s₁, h1, -⟩ := bind_ok h
    unfold bodyRespond at h1
    rw [if_pos (by exact huc)] at h1
    obtain ⟨r', h3, -⟩ := bind_ok h1
    exact responseBuild_needs (r := { s.r with bodyReceived := n }) hdate hstatus h3
  · obtain ⟨s₁, h1, -⟩ := bind_ok h
    exact absurd huc (enableUpstreamOut_ok h1).1

/-- Nor does that on `sy_handle_request`. -/
theorem roomy_of_request (hcfg : cfg.headerGet = headerMapGet) (hb : Base true s) (hn : Naming true s)
    (hdate : e.date.length ≤ DATE_LENGTH) (hstatus : ¬(s.r.status = 304 ∨ s.r.status = 100))
    (h : ∃ rc, (handleRequest cfg e s).1 = .ok rc) : Roomy ⟨true, s⟩ (.request e) := by
  obtain ⟨rc, d, hrecv, -, -⟩ := Buffer.recv_spec e.recvs s.r.rb
  unfold handleRequest at h
  dsimp only [Roomy]
  rw [hrecv] at h ⊢
  dsimp only at h ⊢
  refine ⟨hdate, fun hrc => ?_⟩
  rw [if_neg (not_not.mpr hrc)] at h
  change ∃ rc, (requestLoop cfg e 3 (s.receive d)).1 = .ok rc at h
  have hb' := base_receive hb d
  obtain ⟨rc', s₁, hrun, hnext⟩ := requestLoop_returns h
  refine ⟨fun hin hlines hopen huc => ?_, fun hin huc => ?_⟩
  · rw [hin] at hrun
    have hn' := (invariant_naming cfg).receive s d hb hn
    have hloop := headersLoop_parses (e := e) (s := (s.receive d).note (.called .headers (s.receive d).r.state))
      hcfg hb'.rb (hb'.headers (by rw [hin]; simp)) (hn'.named hin) (Nat.lt_succ_self _)
    change requestHandleHeaders cfg e _ = .ok (if linesEnd ((s.receive d).r.rb.size + 1) (s.receive d).r then
      (.ok, { (s.receive d).note _ with r := { (callLines (s.receive d).r).2 with inHandler := .body } }.note _)
        else _) at hloop
    rw [if_pos hlines] at hloop
    have heq : (rc', s₁) = _ := Except.ok.inj (Eq.trans (Eq.symm hrun) hloop)
    obtain ⟨rfl, rfl⟩ := Prod.mk.inj heq
    obtain ⟨name, value, st, b, hframe, -⟩ := parseLines_frame ((s.receive d).r.rb.size + 1) (s.receive d).r
    change (callLines (s.receive d).r).2 = _ at hframe
    have hopen' : (callLines (s.receive d).r).2.bodyDone = false := by
      rw [hframe]
      exact hopen
    have huc' : (callLines (s.receive d).r).2.uc = none := by
      rw [hframe]
      exact huc
    have hstatus' : ¬((callLines (s.receive d).r).2.status = 304 ∨ (callLines (s.receive d).r).2.status = 100) := by
      rw [hframe]
      exact hstatus
    obtain ⟨_, _, hbody, -⟩ := requestLoop_returns (hnext rfl hopen')
    have hroom := localRoom_of_body hdate hstatus' huc' hbody
    unfold LocalRoom at hroom ⊢
    exact hroom
  · rw [hin] at hrun
    exact localRoom_of_body (s := (s.receive d).note _) hdate hstatus huc hrun

end call

/-! ### Runs of the worker -/

theorem alive_bounded (hcfg : cfg.headerGet = headerMapGet) :
    Alive cfg Roomy Naming Bounded where
  share _ _ _ h := ⟨h.rb, h.sb, h.fresh⟩
  poll _ _ _ _ _ h := ⟨h.rb, h.sb, h.fresh⟩
  request s s' e rc hb hj h hgood hrun := by
    have := (handleRequest_bounded hcfg hb hj h hgood).ok rc
    rw [hrun] at this
    exact this rfl
  response p s s' e rc hb _ h _ hout hrun := by
    have hsb := (handleResponse_sb hb.sb hrun).trans h.sb
    cases handleResponse_move hb.sb hrun with
    | sent hs hnot =>
        obtain ⟨sb, oh, done, fd, out, ds, fds, rfl, -⟩ := hs
        refine ⟨h.rb, hsb, fun hin hd => ?_⟩
        exact absurd ((hb.fresh hin hd).2.2.1.symm.trans hout) (by simp)
    | cleared => exact ⟨Nat.zero_le _, hsb, fun _ _ => ⟨rfl, rfl⟩⟩
  upstream p s s' e rc hb _ h hgood huc hrun := by
    obtain ⟨rc', s₁, h1, h2⟩ := handleUpstream_bounded h hgood
    rw [hrun] at h1
    cases h1
    exact h2 fun hin => (hb.late_upstream hin huc).1
  pass p s s' e rc hb _ h hgood huc _ hrun := by
    obtain ⟨rc', s₁, h1, h2⟩ := handlePass_bounded hb.rb h hgood
    rw [hrun] at h1
    cases h1
    exact h2 fun hin => (hb.late_upstream hin huc).1
  close _ _ _ h _ _ := ⟨h.rb, h.sb, h.fresh⟩

theorem bounded_init {w : View} (h : w.Init) : Bounded w.pend w.s := by
  obtain ⟨r₀, c, hr⟩ := h.request
  refine ⟨?_, ?_, fun _ _ => ?_⟩
  · rw [hr]
    exact Nat.zero_le _
  · rw [hr]
    exact Nat.zero_le _
  · rw [hr]
    exact ⟨rfl, rfl⟩

/-- `begin` and `end` are between `data` and `limit`. -/
def Buffer.Within (b : Buffer) : Prop := b.begin ≤ b.end_ ∧ b.end_ ≤ BUF_SIZE

/-- The buffers of every open request of a living worker are within their bounds, and the worker
has not died of an `assert(margin > 0)`. -/
def Server.BuffersWithin (v : Server) : Prop :=
  (v.dead = none → ∀ a, v.Front a →
    (v.reqs (v.conns a).r).rb.Within ∧ (v.reqs (v.conns a).r).sb.Within) ∧
      v.dead ≠ some .appendMargin ∧ v.dead ≠ some .printMargin

/-- **The buffers keep their bounds** in a run in which every response that is put into a buffer in
use fits. -/
theorem buffers_bounded (timeout : ℤ) (locations : List Location) {v : Server}
    (h : Server.Reached (serverConfig timeout locations)
      (Server.Meets (serverConfig timeout locations) Roomy) v) : v.BuffersWithin := by
  have hcfg : (serverConfig timeout locations).headerGet = headerMapGet := by
    unfold serverConfig
    dsimp only
  have hnaming : ∀ w, Server.Reached (serverConfig timeout locations)
      (Server.Meets (serverConfig timeout locations) Roomy) w → w.dead = none →
        ∀ a, w.Front a → Naming (w.view a).pend (w.view a).s := by
    intro w hw _
    have hall : Server.Reached (serverConfig timeout locations)
      (Server.Meets (serverConfig timeout locations) fun _ _ => True) w := hw.mono fun _ _ _ _ _ => trivial
    exact Server.Reached.sessions (invariant_naming _) (fun _ => naming_init) hall
  have hbounded : ∀ w, Server.Reached (serverConfig timeout locations)
      (Server.Meets (serverConfig timeout locations) Roomy) w → w.dead = none →
        ∀ a, w.Front a → Bounded (w.view a).pend (w.view a).s := fun w hw hd =>
    Server.Reached.alive (alive_bounded hcfg) (fun _ => bounded_init) hnaming hw hd
  have hall := Server.Reached.never Fault.margin
    (J := fun p s => (Naming p s ∧ Bounded p s) ∧ Base p s) (by decide)
    (fun w hw hd a ha => ⟨⟨hnaming w hw hd a ha, hbounded w hw hd a ha⟩, hw.sound.base a ha⟩)
    (fun s e f hb hj hgood hf => (handleRequest_bounded hcfg hb hj.1.1 hj.1.2 hgood).error f hf)
    (fun p s e f hj hgood hf => by
      obtain ⟨_, _, h1, -⟩ := handleUpstream_bounded hj.1.2 hgood
      rw [h1] at hf
      cases hf)
    (fun p s e f hj hgood hf => by
      obtain ⟨_, _, h1, -⟩ := handlePass_bounded hj.2.rb hj.1.2 hgood
      rw [h1] at hf
      cases hf) h
  refine ⟨fun hd a ha => ?_, fun hd => ?_, fun hd => ?_⟩
  · have hb := h.sound.base a ha
    have hk := hbounded v h hd a ha
    exact ⟨⟨hb.rb, hk.rb⟩, ⟨hb.sb, hk.sb⟩⟩
  · cases hall _ hd
  · cases hall _ hd

/-- A proxied request, whose upstream sends `n` times 45 bytes and then fails. -/
def upstreamFails (n : ℕ) : List Label :=
  Server.opened ++
  Server.single 0 0 true { idleEnv with recvs := [.got (bytes "GET /p HTTP/1.1\r\n\r\n")] } ++
  [.poll [.conn 1 true false],
    .serveIn (.at 0) { idleEnv with recvs := List.replicate n (.got (List.replicate 45 97)) ++ [.err] }]

set_option maxRecDepth 100000 in
/-- A page behind 45 bytes of the upstream. -/
theorem buffers_bounded_page :
    ∃ v, exec (Server.step (serverConfig 60 [⟨true, bytes "/p"⟩])) Server.boot (upstreamFails 1) =
      some v ∧ v.BuffersWithin := by
  have hrun : (exec (Server.step (serverConfig 60 [⟨true, bytes "/p"⟩])) Server.boot
      (upstreamFails 1)).any (fun v => decide (v.dead = none)) := by
    decide +kernel
  obtain ⟨v, hv, -⟩ := exists_of_any hrun
  have hreach := Reach.exec (.start Server.boot_init)
    (show Transition.Along _ (Server.Meets (serverConfig 60 [⟨true, bytes "/p"⟩]) Roomy) _
      (upstreamFails 1) by decide +kernel) hv
  exact ⟨v, hv, buffers_bounded 60 _ hreach⟩

set_option maxRecDepth 100000 in
/-- A page behind 2025 bytes of the upstream fails an assertion. -/
theorem full_page_aborts :
    ¬ ∀ (timeout : ℤ) (locations : List Location) (v : Server),
      Server.Reached (serverConfig timeout locations) (fun _ _ => True) v → v.BuffersWithin := by
  intro hall
  have hrun : (exec (Server.step (serverConfig 60 [⟨true, bytes "/p"⟩])) Server.boot
      (upstreamFails 45)).any (fun v => decide (v.dead = some .appendMargin)) := by
    decide +kernel
  obtain ⟨v, hv, hend⟩ := exists_of_any hrun
  have hreach := Reach.exec (.start Server.boot_init) (along_true _ _) hv
  exact (hall _ _ v hreach).2.1 (of_decide_eq_true hend)

end SyServer
