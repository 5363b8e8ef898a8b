import SyServer.Handlers
import SyServer.ParseCalls
import SyServer.Lib.Transition

/-! # What the handlers do, as moves

Each handler of `Handlers.lean`, once and for all, as the changes it can make to a session.  The
invariants are proved move by move and never unfold a handler.

* `ClientMove`: one change made below `sy_handle_request`; a call is a sequence of them
  (`handleRequest_moves`).
* `PassMove`, `UpstreamMove`, `ResponseMove`: the outcomes of the other three handlers.
* `requestLoop_fuel`, `headersLoop_fuel`, `responseLoop_fuel`: the bounds of the loops are never
  the reason they end. -/

namespace SyServer

open Relation (ReflTransGen)

/-! ### Opening an upstream -/

/-- What `sy_uwsgi_open_connection` answers and does to the shared data. -/
inductive Opened (g : Shared) (fd : ℕ) : Option ConnAddr → Shared → Prop
  | unreachable : Opened g fd none (g.openFd fd)
  | refused {a : ConnAddr} {pool : Pool} {t : ℤ} (heap : Heap) (ha : g.pool.alloc = (a, pool))
      (htime : heap.time = (g.heap.setTime a t).time) :
      Opened g fd none ⟨pool.release a, heap, true, ((g.openFd fd).closeFd fd).fds⟩
  | closed {a : ConnAddr} {pool : Pool} {t : ℤ} {heap heap' : Heap} (ha : g.pool.alloc = (a, pool))
      (hreg : (g.heap.setTime a t).register a = (true, heap)) (hun : heap.unregister a = .ok heap') :
      Opened g fd none { (g.openFd fd).closeFd fd with pool := pool.release a, heap := heap' }
  | done {a : ConnAddr} {pool : Pool} {t : ℤ} {heap : Heap} (ha : g.pool.alloc = (a, pool))
      (hreg : (g.heap.setTime a t).register a = (true, heap)) :
      Opened g fd (some a) { g.openFd fd with pool := pool, heap := heap }

theorem closeBack_ok {g g' : Shared} {a : ConnAddr} {fd : ℕ} (h : g.closeBack a fd = .ok g') :
    ∃ heap, g.heap.unregister a = .ok heap ∧
      g' = { g.closeFd fd with pool := g.pool.release a, heap := heap } := by
  obtain ⟨heap, h1, h2⟩ := bind_ok h
  cases h2
  exact ⟨heap, h1, rfl⟩

/-- The session after an upstream was opened, or not. -/
theorem uwsgiOpenConnection_opened {e : Upstream} {s s' : Session} {uc : Option ConnAddr}
    (h : uwsgiOpenConnection e true s = .ok (uc, s')) :
    ∃ g, Opened s.g e.fd uc g ∧
      (uc = none ∧ { s' with r := { s'.r with uc := none } } =
          { s with g := g, r := { s.r with uc := none } } ∨
        uc ≠ none ∧ s' = { s with g := g, u := ⟨e.fd, .back, true, false, s.self⟩ }) := by
  unfold uwsgiOpenConnection at h
  rw [if_neg (by simp)] at h
  dsimp only [Shared.openFd] at h
  by_cases hreach : (!e.pton) = true ∨ (!e.connect) = true
  · rw [if_pos hreach] at h
    cases h
    exact ⟨_, .unreachable, .inl ⟨rfl, rfl⟩⟩
  rw [if_neg hreach] at h
  obtain ⟨a, pool, hp⟩ : ∃ a pool, s.g.pool.alloc = (a, pool) := ⟨_, _, rfl⟩
  obtain ⟨ok, heap, hreg⟩ : ∃ ok heap, (s.g.heap.setTime a e.now).register a = (ok, heap) :=
    ⟨_, _, rfl⟩
  rw [hp] at h
  dsimp only at h
  rw [hreg] at h
  cases ok with
  | false =>
      obtain ⟨g, h1, h2⟩ := bind_ok h
      cases h2
      obtain ⟨heap', hun, rfl⟩ := closeBack_ok h1
      exact ⟨_, .refused heap' hp (Heap.unregister_frame hun).2.2, .inl ⟨rfl, rfl⟩⟩
  | true =>
      dsimp only at h
      split_ifs at h
      · obtain ⟨g, h1, h2⟩ := bind_ok h
        cases h2
        obtain ⟨heap', hun, rfl⟩ := closeBack_ok h1
        exact ⟨_, .closed hp hreg hun, .inl ⟨rfl, rfl⟩⟩
      · cases h
        exact ⟨_, .done hp hreg, .inr ⟨by simp, rfl⟩⟩

/-! ### The URI -/

/-- What `sy_request_handle_uri` can do. -/
inductive UriMove (s : Session) : Session → Prop
  | notFound (host : Str) (port : ℤ) {b : Buffer} (hb : Grows s.r.sb b) :
      UriMove s ({ s with r := { s.r with host := host, port := port } }.errored 404 b)
  | refused (host : Str) (port : ℤ) {g : Shared} {b : Buffer} {fd : ℕ} (hg : Opened s.g fd none g)
      (hb : Grows s.r.sb b) :
      UriMove s ({ s with
        r := { s.r with host := host, port := port, uc := none }, g := g
        log := .matched true :: s.log }.errored 503 b)
  | proxied (host : Str) (port : ℤ) {g : Shared} {a : ConnAddr} (fd : ℕ)
      (hg : Opened s.g fd (some a) g) :
      UriMove s { s with
        r := { s.r with host := host, port := port, uc := some a }
        u := ⟨fd, .back, true, false, s.self⟩, g := g, log := .matched true :: s.log }
  | missing (host : Str) (port : ℤ) (i : ℕ) (status : ℕ) {b : Buffer} (hb : Grows s.r.sb b)
      (fds : List (Ledger.Entry ℕ)) :
      UriMove s ({ s with
        r := { s.r with host := host, port := port, rb := s.r.rb.write i 0 }
        g := { s.g with fds := fds }
        log := .matched false :: s.log }.errored status b)
  | found (host : Str) (port : ℤ) (i : ℕ) (uri : Uri) (fd : ℕ) (size : ℤ)
      (fds : List (Ledger.Entry ℕ)) :
      UriMove s { s with
        r := { s.r with
          host := host, port := port, rb := s.r.rb.write i 0, uri := uri
          resourceFd := some fd, resourceLen := size }
        g := { s.g with fds := fds }
        log := .matched false :: s.log }

theorem uriHost_frame {r r' : Request} (h : uriHost r = .ok r') :
    ∃ host port, r' = { r with host := host, port := port } := by
  unfold uriHost at h
  dsimp only at h
  split_ifs at h
  · cases h; exact ⟨_, _, rfl⟩
  · cases h; exact ⟨_, _, rfl⟩
  · obtain ⟨port, -, h2⟩ := bind_ok h
    cases h2
    exact ⟨_, _, rfl⟩

theorem relPath_frame {r r' : Request} {path : List UInt8} (h : relPath r = .ok (r', path)) :
    ∃ i, r' = { r with rb := r.rb.write i 0 } := by
  unfold relPath at h
  cases hd : r.uri.absPath.data <;> rw [hd] at h <;> cases h
  exact ⟨_, rfl⟩

theorem requestHandleUri_move {cfg : Config} {e : Env} {s s' : Session} {rc : Rc}
    (h : requestHandleUri cfg e s = .ok (rc, s')) : UriMove s s' := by
  obtain ⟨r, h1, h2⟩ := bind_ok h
  obtain ⟨host, port, rfl⟩ := uriHost_frame h1
  obtain ⟨loc, -, h3⟩ := bind_ok h2
  cases loc with
  | none =>
      obtain ⟨-, b, hb, rfl⟩ := responseBuildErr_spec h3
      exact .notFound host port hb
  | some loc =>
      dsimp only at h3
      by_cases hpass : loc.pass = true
      · rw [if_pos hpass, hpass] at h3
        obtain ⟨⟨uc, s₁⟩, h4, h5⟩ := bind_ok h3
        obtain ⟨g, hg, ⟨rfl, hs⟩ | ⟨hne, rfl⟩⟩ := uwsgiOpenConnection_opened h4
        · dsimp only at h5
          rw [if_pos rfl, hs] at h5
          obtain ⟨-, b, hb, rfl⟩ := responseBuildErr_spec h5
          exact .refused host port hg hb
        · cases uc with
          | none => exact absurd rfl hne
          | some a =>
              cases h5
              exact .proxied host port e.upstream.fd hg
      · rw [if_neg hpass, Bool.eq_false_of_not_eq_true hpass] at h3
        obtain ⟨⟨r, path⟩, h4, h5⟩ := bind_ok h3
        obtain ⟨i, rfl⟩ := relPath_frame h4
        dsimp only [Session.note] at h5
        cases hres : e.resource path with
        | missing =>
            rw [hres] at h5
            obtain ⟨-, b, hb, rfl⟩ := responseBuildErr_spec h5
            exact .missing (s := s) host port i 404 hb s.g.fds
        | file fd size =>
            rw [hres] at h5
            cases h5
            exact .found host port i s.r.uri fd (wrap32 size) (s.g.openFd fd).fds
        | directory dir index =>
            rw [hres] at h5
            cases index with
            | none =>
                obtain ⟨-, b, hb, rfl⟩ := responseBuildErr_spec h5
                exact .missing (s := s) host port i 403 hb ((s.g.openFd dir).closeFd dir).fds
            | some p =>
                cases h5
                exact .found host port i _ p.1 (wrap32 p.2) (((s.g.openFd dir).openFd p.1).closeFd dir).fds

/-! ### Header processors -/

/-- A processor sets its fields, or calls `sy_response_build_err`. -/
theorem Processor.run_outcome {date : List UInt8} {offset : HeaderField} {s s' : Session} {rc : Rc}
    {p : Processor} (h : p.run date offset s = .ok (rc, s')) :
    (∃ hs k te n, (k = true → s.r.keepAlive = true) ∧ rc = .ok ∧
        s' = { s with r := { s.r with
          headers := hs, keepAlive := k, tEncoding := te, contentLength := n } }) ∨
      ∃ hs, ∃ status ∈ [400, 415],
        responseBuildErr date status { s with r := { s.r with headers := hs } } = .ok (rc, s') := by
  cases p with
  | generic | host | accept | ifModifiedSince => cases h; exact .inl ⟨_, _, _, _, id, rfl, rfl⟩
  | connection =>
      obtain ⟨close, -, h2⟩ := bind_ok h
      cases h2
      cases close with
      | true => exact .inl ⟨_, false, _, _, (fun h => by cases h), rfl, rfl⟩
      | false => exact .inl ⟨_, _, _, _, id, rfl, rfl⟩
  | tEncoding =>
      obtain ⟨te, -, h2⟩ := bind_ok h
      cases te with
      | none => exact .inr ⟨_, 415, by simp, h2⟩
      | some te => cases h2; exact .inl ⟨_, _, _, _, id, rfl, rfl⟩
  | contentLength =>
      obtain ⟨len, -, h2⟩ := bind_ok h
      split_ifs at h2
      · exact .inr ⟨_, 400, by simp, h2⟩
      · cases h2; exact .inl ⟨_, _, _, _, id, rfl, rfl⟩

/-- A processor answers `OK`: it has set its fields, or put an error response. -/
theorem Processor.run_cases {date : List UInt8} {offset : HeaderField} {s s' : Session} {rc : Rc}
    {p : Processor} (h : p.run date offset s = .ok (rc, s')) :
    rc = .ok ∧
      ((∃ hs k te n, (k = true → s.r.keepAlive = true) ∧
        s' = { s with r := { s.r with
          headers := hs, keepAlive := k, tEncoding := te, contentLength := n } }) ∨
      ∃ hs status b, Grows s.r.sb b ∧
        s' = ({ s with r := { s.r with headers := hs } }.errored status b)) := by
  rcases Processor.run_outcome h with ⟨hs, k, te, n, hk, rfl, rfl⟩ | ⟨hs, status, -, hpage⟩
  · exact ⟨rfl, .inl ⟨hs, k, te, n, hk, rfl⟩⟩
  · obtain ⟨rfl, b, hb, rfl⟩ := responseBuildErr_spec hpage
    exact ⟨rfl, .inr ⟨hs, status, b, hb, rfl⟩⟩

/-! ### Below `sy_handle_request` -/

/-- The request is received completely and waits for its response. -/
def Session.Late (s : Session) : Prop := s.r.bodyDone = true ∧ s.r.inHandler = .requestLine

/-- `sy_request_handle_body` was just called, either in the first round of the loop of
`sy_handle_request` or while `body_done` was unset. -/
def Session.BodyCalled (s : Session) : Prop :=
  ∃ st l, s.log = .called .body st :: l ∧ (s.r.bodyDone = false ∨ ∃ d l', l = .received d :: l')

/-- The file of a request is kept, or it is closed. -/
def Session.FileAfter (s : Session) (fd : Option ℕ) (fds : List (Ledger.Entry ℕ)) : Prop :=
  fd = s.r.resourceFd ∧ fds = s.g.fds ∨ fd = none ∧ fds = (s.g.closeFile s.r.resourceFd).fds

theorem Session.FileAfter.refl (s : Session) : s.FileAfter s.r.resourceFd s.g.fds := .inl ⟨rfl, rfl⟩

theorem Session.FileAfter.of_unsent {s : Session} {fd : Option ℕ}
    (h : fd = if s.r.status = 304 ∨ s.r.status = 100 then none else s.r.resourceFd) :
    s.FileAfter fd (s.g.closeFile s.r.unsent).fds := by
  unfold Request.unsent
  split_ifs at h ⊢
  · exact .inr ⟨h, rfl⟩
  · exact .inl ⟨h, rfl⟩

/-- One change below `sy_handle_request`.  The handler of the request line runs only while
`body_done` is unset; `handleRequest_late` is about the other case. -/
inductive ClientMove (cfg : Config) (s : Session) : Session → Prop
  | called (h : ¬ s.Late) : ClientMove cfg s (s.note (.called s.r.inHandler s.r.state))
  | lineMore {r : Request} (hopen : s.r.bodyDone = false)
      (hin : s.r.inHandler = .requestLine)
      (hp : parseRequestLine s.r = .ok (.again, r)) : ClientMove cfg s { s with r := r }
  | lineError {rc : Rc} {r : Request} {b : Buffer} (status : ℕ) (hopen : s.r.bodyDone = false)
      (hin : s.r.inHandler = .requestLine)
      (hp : parseRequestLine s.r = .ok (rc, r)) (hrc : rc ≠ .again) (hb : Grows r.sb b) :
      ClientMove cfg s ({ s with r := r }.errored status b)
  | lineOk {r : Request} {s' : Session} (k : Bool) (hopen : s.r.bodyDone = false)
      (hin : s.r.inHandler = .requestLine)
      (hp : parseRequestLine s.r = .ok (.ok, r))
      (huri : UriMove { s with r := { r with keepAlive := k, inHandler := .headers } } s') :
      ClientMove cfg s s'
  | headersMore {r : Request} (hin : s.r.inHandler = .headers)
      (hp : parseHeaderLine s.r = .ok (.again, r)) : ClientMove cfg s { s with r := r }
  | header {r : Request} (hin : s.r.inHandler = .headers)
      (hp : parseHeaderLine s.r = .ok (.ok, r)) : ClientMove cfg s { s with r := r }
  | headerSet {r : Request} {v : HeaderVal} (hs : HeaderField → Str) (k : Bool)
      (te : TransferEncoding) (n : ℤ) (hin : s.r.inHandler = .headers)
      (hp : parseHeaderLine s.r = .ok (.ok, r)) (hget : cfg.headerGet r.mem r.headerName = some v)
      (hk : k = true → r.keepAlive = true) :
      ClientMove cfg s { s with r := { r with
        headers := hs, keepAlive := k, tEncoding := te, contentLength := n } }
  | headerError {r : Request} {v : HeaderVal} {b : Buffer} (hs : HeaderField → Str) (status : ℕ)
      (hin : s.r.inHandler = .headers) (hp : parseHeaderLine s.r = .ok (.ok, r))
      (hget : cfg.headerGet r.mem r.headerName = some v) (hb : Grows r.sb b) :
      ClientMove cfg s ({ s with r := { r with headers := hs } }.errored status b)
  | headersEnd {r : Request} (hin : s.r.inHandler = .headers)
      (hp : parseHeaderLine s.r = .ok (.emptyLine, r)) :
      ClientMove cfg s { s with
        r := { r with inHandler := .body }, log := .headersEnd r.rb.begin :: s.log }
  | bodyMore (n : ℤ) (hin : s.r.inHandler = .body) (hlen : 0 < s.r.contentLength)
      (huc : s.r.uc ≠ none) :
      ClientMove cfg s { s with
        r := rbRewind { s.r with bodyReceived := n }, c := disableIn s.c, u := enableOut s.u }
  | bodyRelayed (n : ℤ) (hin : s.r.inHandler = .body) (huc : s.r.uc ≠ none) :
      ClientMove cfg s { s with
        r := rbRewind { s.r with bodyReceived := n, bodyDone := true, inHandler := .requestLine }
        c := disableIn s.c, u := enableOut s.u }
  | bodyLocal {b : Buffer} (n : ℤ) (fd : Option ℕ) (hin : s.r.inHandler = .body)
      (huc : s.r.uc = none) (hb : Grows s.r.sb b) (hcall : s.BodyCalled)
      (fds : List (Ledger.Entry ℕ)) (hfile : s.FileAfter fd fds) :
      ClientMove cfg s { s with
        r := { s.r with
          bodyReceived := n, sb := b, resourceFd := fd, rb := s.r.rb.clear, bodyDone := true
          inHandler := .requestLine }
        c := enableOut (disableIn s.c), g := { s.g with fds := fds }
        log := .built (b.slice s.r.sb.end_ b.end_) :: s.log }

section client

variable {cfg : Config} {e : Env} {s s' : Session} {rc : Rc}

theorem requestHandleRequestLine_move (hopen : s.r.bodyDone = false)
    (hin : s.r.inHandler = .requestLine)
    (h : requestHandleRequestLine cfg e s = .ok (rc, s')) : ClientMove cfg s s' := by
  obtain ⟨⟨err, r⟩, hp, h2⟩ := bind_ok h
  dsimp only at h2
  split_ifs at h2 with hagain hok hversion
  · cases h2
    exact .lineMore hopen hin (by rw [hp, hagain])
  · obtain ⟨-, b, hb, rfl⟩ := responseBuildErr_spec h2
    exact .lineError 400 hopen hin hp hagain hb
  · obtain ⟨-, b, hb, rfl⟩ := responseBuildErr_spec h2
    exact .lineError 505 hopen hin hp hagain hb
  · rw [not_not.mp hok] at hp
    exact .lineOk _ hopen hin hp (requestHandleUri_move h2)

theorem enableUpstreamOut_ok (h : enableUpstreamOut s = .ok s') :
    s.r.uc ≠ none ∧ s' = { s with u := enableOut s.u } := by
  unfold enableUpstreamOut at h
  split_ifs at h with huc
  cases h
  exact ⟨huc, rfl⟩

theorem parseRequestBodyIdentity_frame (r : Request) :
    ∃ n, (parseRequestBodyIdentity r).2 = { r with bodyReceived := n } ∧
      ((parseRequestBodyIdentity r).1 = .ok ∨
        (parseRequestBodyIdentity r).1 = .again ∧ 0 < r.contentLength) := by
  unfold parseRequestBodyIdentity
  dsimp only
  split_ifs with h0 h1
  · exact ⟨_, rfl, .inl rfl⟩
  · exact ⟨_, rfl, .inl rfl⟩
  · exact ⟨_, rfl, .inr ⟨rfl, not_le.mp h0⟩⟩

theorem requestHandleBody_move (hin : s.r.inHandler = .body) (hcall : s.BodyCalled)
    (h : requestHandleBody e s = .ok (rc, s')) : ClientMove cfg s s' := by
  unfold requestHandleBody at h
  split_ifs at h with hte
  obtain ⟨n, hr, hrc⟩ := parseRequestBodyIdentity_frame s.r
  obtain ⟨err, r, he⟩ : ∃ err r, parseRequestBodyIdentity s.r = (err, r) := ⟨_, _, rfl⟩
  rw [he] at hr hrc h
  dsimp only at hr hrc h
  subst hr
  rcases hrc with rfl | ⟨rfl, hlen⟩
  · obtain ⟨s₁, h1, h2⟩ := bind_ok h
    cases h2
    unfold bodyRespond at h1
    dsimp only at h1
    split_ifs at h1 with huc
    · obtain ⟨r', h3, h4⟩ := bind_ok h1
      cases h4
      obtain ⟨b, fd, rfl, hb, hfd⟩ := responseBuild_spec h3
      rw [Shared.closeFile_fds]
      exact .bodyLocal n fd hin huc hb hcall _ (.of_unsent (s := s) hfd)
    · obtain ⟨-, rfl⟩ := enableUpstreamOut_ok h1
      exact .bodyRelayed n hin huc
  · obtain ⟨s₁, h1, h2⟩ := bind_ok h
    cases h2
    obtain ⟨huc, rfl⟩ := enableUpstreamOut_ok h1
    exact .bodyMore n hin hlen huc

theorem headersLoop_moves {n : ℕ} (hin : s.r.inHandler = .headers)
    (h : headersLoop cfg e n s = .ok (rc, s')) : ReflTransGen (ClientMove cfg) s s' := by
  induction n generalizing s with
  | zero => cases h; exact .refl
  | succ n ih =>
      obtain ⟨⟨err, r⟩, hp, h2⟩ := bind_ok h
      have hin' : r.inHandler = .headers := by
        obtain ⟨_, _, _, _, rfl, -, -⟩ := parseHeaderLine_frame hp
        exact hin
      dsimp only at h2
      cases err with
      | again => cases h2; exact .single (.headersMore hin hp)
      | emptyLine => cases h2; exact .single (.headersEnd hin hp)
      | ok =>
          dsimp only at h2
          cases hget : cfg.headerGet r.mem r.headerName with
          | none =>
              rw [hget] at h2
              exact .head (.header hin hp) (ih hin' h2)
          | some v =>
              rw [hget] at h2
              obtain ⟨⟨err, s₁⟩, h3, h4⟩ := bind_ok h2
              obtain ⟨rfl, ⟨hs, k, te, m, hk, rfl⟩ | ⟨hs, status, b, hb, rfl⟩⟩ :=
                Processor.run_cases h3
              · exact .head (.headerSet hs k te m hin hp hget hk) (ih hin' h4)
              · exact .head (.headerError hs status hin hp hget hb) (ih hin' h4)
      | _ => cases h2

/-- A call of `in_handler` is a sequence of moves. -/
theorem InHandler.run_moves (hlate : ¬ s.Late) (hcall : s.r.inHandler = .body → s.BodyCalled)
    (h : s.r.inHandler.run cfg e s = .ok (rc, s')) :
    ReflTransGen (ClientMove cfg) s s' := by
  cases hin : s.r.inHandler <;> rw [hin] at h
  case requestLine =>
      have hopen : s.r.bodyDone = false := Bool.eq_false_of_not_eq_true fun hd => hlate ⟨hd, hin⟩
      exact .single (requestHandleRequestLine_move hopen hin h)
  case headers => exact headersLoop_moves hin h
  case body => exact .single (requestHandleBody_move hin (hcall hin) h)

/-- The loop of `sy_handle_request`, with the failed assertion if there is one. -/
theorem requestLoop_moves {n : ℕ} {res : Except Fault Rc} (hlate : ¬ s.Late)
    (hfirst : s.r.bodyDone = false ∨ ∃ d l, s.log = .received d :: l) (h : requestLoop cfg e n s = (res, s')) :
    ReflTransGen (ClientMove cfg) s s' ∧
      ∀ f, res = .error f → ¬ s'.Late ∧ s'.r.inHandler.run cfg e s' = .error f := by
  induction n generalizing s with
  | zero => cases h; exact ⟨.refl, fun f hf => by cases hf⟩
  | succ n ih =>
      unfold requestLoop at h
      dsimp only at h
      have hcall : ClientMove cfg s _ := .called hlate
      cases hrun : (s.note (.called s.r.inHandler s.r.state)).r.inHandler.run cfg e
          (s.note (.called s.r.inHandler s.r.state)) with
      | error f =>
          rw [hrun] at h
          cases h
          exact ⟨.single hcall, fun g hg => by cases hg; exact ⟨hlate, hrun⟩⟩
      | ok p =>
          obtain ⟨err, s₁⟩ := p
          rw [hrun] at h
          have hmoves := InHandler.run_moves (s := s.note _) hlate
            (fun hin => ⟨s.r.state, s.log, congrArg (Action.called · _ :: s.log) hin, hfirst⟩) hrun
          dsimp only at h
          split_ifs at h with hgo
          · obtain ⟨h1, h2⟩ := ih (fun hl => by rw [hl.1] at hgo; cases hgo.2) (.inl hgo.2) h
            exact ⟨.head hcall (hmoves.trans h1), h2⟩
          · cases h
            exact ⟨.head hcall hmoves, fun f hf => by cases hf⟩

/-- New bytes of the client behind those of `rb`. -/
def Session.receive (s : Session) (d : List UInt8) : Session :=
  { s with r := { s.r with rb := s.r.rb.put d }, log := .received d :: s.log }

/-- **A call of `sy_handle_request`** receives bytes and makes moves. -/
theorem handleRequest_moves {res : Except Fault Rc}
    (hlate : (s.r.rb.recv e.recvs).1 = .again → ¬ s.Late)
    (h : handleRequest cfg e s = (res, s')) :
    ∃ d, d = (s.r.rb.recv e.recvs).2.2 ∧ ReflTransGen (ClientMove cfg) (s.receive d) s' ∧
      ∀ f, res = .error f → ¬ s'.Late ∧ s'.r.inHandler.run cfg e s' = .error f := by
  obtain ⟨rc, d, hrecv, -, -⟩ := Buffer.recv_spec e.recvs s.r.rb
  rw [hrecv] at hlate
  unfold handleRequest at h
  rw [hrecv] at h ⊢
  dsimp only at h hlate
  refine ⟨d, rfl, ?_⟩
  split_ifs at h with hrc
  · cases h
    exact ⟨.refl, fun f hf => by cases hf⟩
  · have hl : ¬ (s.receive d).Late := hlate (not_not.mp hrc)
    exact requestLoop_moves hl (.inr ⟨d, s.log, rfl⟩) h

/-- A call whose `recv` fails, or meets the end of the input, parses nothing. -/
theorem handleRequest_unread (hrc : (s.r.rb.recv e.recvs).1 ≠ .again) :
    (handleRequest cfg e s).2 = s.receive (s.r.rb.recv e.recvs).2.2 := by
  obtain ⟨rc, d, hrecv, -, -⟩ := Buffer.recv_spec e.recvs s.r.rb
  unfold handleRequest
  rw [hrecv] at hrc ⊢
  dsimp only at hrc ⊢
  rw [if_pos hrc]
  rfl

/-- What a call can do while the request waits for its response: `sy_parse_request_line` is
called in a state of the header parser. -/
inductive LateMove (s : Session) : Session → Prop
  | aborted : LateMove s (s.note (.called s.r.inHandler s.r.state))
  | empty : LateMove s ({ s with r := rbConsumed s.r }.note (.called s.r.inHandler s.r.state))

theorem handleRequest_late {res : Except Fault Rc} (hlate : s.Late)
    (hst : s.r.state.headerLine = true) (h : handleRequest cfg e s = (res, s')) :
    ∃ d, d = (s.r.rb.recv e.recvs).2.2 ∧
      (s' = s.receive d ∨ (s.r.rb.recv e.recvs).1 = .again ∧ LateMove (s.receive d) s') := by
  obtain ⟨rc, d, hrecv, -, -⟩ := Buffer.recv_spec e.recvs s.r.rb
  unfold handleRequest at h
  rw [hrecv] at h ⊢
  refine ⟨d, rfl, ?_⟩
  dsimp only at h ⊢
  split_ifs at h with hrc
  · cases h
    exact .inl rfl
  refine .inr ⟨not_not.mp hrc, ?_⟩
  have hin : (s.receive d).r.inHandler = .requestLine := hlate.2
  change requestLoop cfg e 3 (s.receive d) = _ at h
  unfold requestLoop at h
  dsimp only at h
  rw [show ((s.receive d).note (.called (s.receive d).r.inHandler (s.receive d).r.state)).r.inHandler
    = .requestLine from hin] at h
  cases hrun : InHandler.run cfg e
      ((s.receive d).note (.called (s.receive d).r.inHandler (s.receive d).r.state)) .requestLine with
  | error f =>
      rw [hrun] at h
      cases h
      exact .aborted
  | ok p =>
      rw [hrun] at h
      obtain ⟨⟨err, r⟩, hp, h2⟩ := bind_ok hrun
      obtain ⟨rfl, rfl⟩ := parseRequestLine_wrong (r := (s.receive d).r) hst hp
      cases h2
      cases h
      exact .empty

/-! ### One round of the loop -/

/-- A round of the loop of `sy_handle_request`. -/
theorem requestLoop_round {n : ℕ} {P : Except Fault Rc × Session → Prop}
    (herror : ∀ f, s.r.inHandler.run cfg e (s.note (.called s.r.inHandler s.r.state)) = .error f →
      P (.error f, s.note (.called s.r.inHandler s.r.state)))
    (hok : ∀ rc s', s.r.inHandler.run cfg e (s.note (.called s.r.inHandler s.r.state)) = .ok (rc, s') →
      (rc = .ok → s'.r.bodyDone = true) → P (.ok rc, s'))
    (hnext : ∀ s', s.r.inHandler.run cfg e (s.note (.called s.r.inHandler s.r.state)) = .ok (.ok, s') →
      s'.r.bodyDone = false → P (requestLoop cfg e n s')) : P (requestLoop cfg e (n + 1) s) := by
  unfold requestLoop
  dsimp only
  rw [show (s.note (.called s.r.inHandler s.r.state)).r.inHandler = s.r.inHandler from rfl]
  cases hrun : s.r.inHandler.run cfg e (s.note (.called s.r.inHandler s.r.state)) with
  | error f => exact herror f hrun
  | ok p =>
      obtain ⟨rc, s'⟩ := p
      dsimp only
      split_ifs with hgo
      · obtain ⟨rfl, hd⟩ := hgo
        exact hnext s' hrun hd
      · refine hok rc s' hrun fun hrc => ?_
        apply Bool.eq_true_of_not_eq_false
        intro hd
        exact hgo ⟨hrc, hd⟩

/-- What a loop that returns has called. -/
theorem requestLoop_returns {n : ℕ} (h : ∃ rc, (requestLoop cfg e (n + 1) s).1 = .ok rc) :
    ∃ rc s', s.r.inHandler.run cfg e (s.note (.called s.r.inHandler s.r.state)) = .ok (rc, s') ∧
      (rc = .ok → s'.r.bodyDone = false → ∃ rc, (requestLoop cfg e n s').1 = .ok rc) := by
  obtain ⟨rc, h⟩ := h
  unfold requestLoop at h
  dsimp only at h
  rw [show (s.note (.called s.r.inHandler s.r.state)).r.inHandler = s.r.inHandler from rfl] at h
  cases hrun : s.r.inHandler.run cfg e (s.note (.called s.r.inHandler s.r.state)) with
  | error f =>
      rw [hrun] at h
      cases h
  | ok p =>
      rw [hrun] at h
      refine ⟨p.1, p.2, rfl, fun hrc hd => ⟨rc, ?_⟩⟩
      dsimp only at h
      rw [if_pos ⟨hrc, hd⟩] at h
      exact h

/-! ### The loops end by themselves -/

theorem requestHandleRequestLine_ok (h : requestHandleRequestLine cfg e s = .ok (.ok, s')) :
    s'.r.bodyDone = true ∨ s'.r.inHandler = .headers := by
  obtain ⟨⟨err, r⟩, hp, h2⟩ := bind_ok h
  dsimp only at h2
  split_ifs at h2
  · cases h2
  · obtain ⟨-, b, hb, rfl⟩ := responseBuildErr_spec h2
    exact .inl rfl
  · obtain ⟨-, b, hb, rfl⟩ := responseBuildErr_spec h2
    exact .inl rfl
  · cases requestHandleUri_move h2 with
    | proxied => exact .inr rfl
    | found => exact .inr rfl
    | _ => exact .inl rfl

theorem headersLoop_ok {n : ℕ} (h : headersLoop cfg e n s = .ok (.ok, s')) :
    s'.r.inHandler = .body := by
  induction n generalizing s with
  | zero => cases h
  | succ n ih =>
      obtain ⟨⟨err, r⟩, -, h2⟩ := bind_ok h
      dsimp only at h2
      cases err with
      | again => cases h2
      | emptyLine => cases h2; rfl
      | ok =>
          dsimp only at h2
          cases hget : cfg.headerGet r.mem r.headerName with
          | none => rw [hget] at h2; exact ih h2
          | some v =>
              rw [hget] at h2
              obtain ⟨⟨err, s₁⟩, h3, h4⟩ := bind_ok h2
              obtain ⟨rfl, -⟩ := Processor.run_cases h3
              exact ih h4
      | _ => cases h2

/-- A call that answers `OK` and leaves `body_done` unset has moved `in_handler` on. -/
def InHandler.rank : InHandler → ℕ
  | requestLine => 2
  | headers => 1
  | body => 0

theorem InHandler.run_rank (h : s.r.inHandler.run cfg e s = .ok (.ok, s'))
    (hd : s'.r.bodyDone = false) : s'.r.inHandler.rank < s.r.inHandler.rank := by
  cases hin : s.r.inHandler <;> rw [hin] at h
  case requestLine =>
      rcases requestHandleRequestLine_ok h with h1 | h1
      · rw [hd] at h1; cases h1
      · rw [h1]; decide
  case headers =>
      rw [headersLoop_ok h]
      decide
  case body =>
      exfalso
      unfold InHandler.run requestHandleBody at h
      dsimp only at h
      split_ifs at h
      cases hp : parseRequestBodyIdentity s.r with
      | mk err r =>
          rw [hp] at h
          dsimp only at h
          cases err with
          | again => obtain ⟨s₁, -, h2⟩ := bind_ok h; cases h2
          | ok =>
              obtain ⟨s₁, -, h2⟩ := bind_ok h
              cases h2
              cases hd
          | _ =>
              obtain ⟨-, b, hb, rfl⟩ := responseBuildErr_spec h
              cases hd

/-- The loop of `sy_handle_request` makes three rounds at most. -/
theorem requestLoop_fuel {n m : ℕ} (hn : s.r.inHandler.rank < n) (hm : s.r.inHandler.rank < m) :
    requestLoop cfg e n s = requestLoop cfg e m s := by
  induction n generalizing m s with
  | zero => omega
  | succ n ih =>
      cases m with
      | zero => omega
      | succ m =>
          unfold requestLoop
          dsimp only
          cases hrun : (s.note (.called s.r.inHandler s.r.state)).r.inHandler.run cfg e
              (s.note (.called s.r.inHandler s.r.state)) with
          | error f => rfl
          | ok p =>
              obtain ⟨err, s₁⟩ := p
              dsimp only
              split_ifs with hgo
              · have hrank : s₁.r.inHandler.rank < s.r.inHandler.rank := by
                  rw [hgo.1] at hrun
                  exact InHandler.run_rank (s := s.note _) hrun hgo.2
                exact ih (by omega) (by omega)
              · rfl

theorem Processor.run_rb {date : List UInt8} {offset : HeaderField} {p : Processor}
    (h : p.run date offset s = .ok (rc, s')) : s'.r.rb = s.r.rb := by
  obtain ⟨-, ⟨_, _, _, _, -, hs⟩ | ⟨_, _, _, -, hs⟩⟩ := Processor.run_cases h
  · rw [hs]
  · rw [hs]; rfl

/-- A round of the loop that parsed a header line. -/
theorem headersLoop_line {n : ℕ} {r : Request} (hp : parseHeaderLine s.r = .ok (.ok, r)) :
    headersLoop cfg e (n + 1) s =
      match cfg.headerGet r.mem r.headerName with
      | none => headersLoop cfg e n { s with r := r }
      | some v => (v.processor.run e.date v.offset { s with r := r }) >>= fun p =>
          if p.1 ≠ .ok then pure p else headersLoop cfg e n p.2 := by
  rw [headersLoop, hp]
  rfl

theorem parseHeaderLine_size {r r' : Request} (hp : parseHeaderLine r = .ok (.ok, r')) :
    r'.rb.size < r.rb.size := by
  rcases parseHeaderLine_cases hp with ⟨h0, -⟩ | ⟨k, r₁, r₂, -, hk, hf, -, -, rfl⟩
  · cases h0
  · obtain ⟨_, _, _, b, rfl, -, -, hend⟩ := hf
    show b.end_ - (r.rb.begin + k + 1) < r.rb.end_ - r.rb.begin
    unfold Buffer.size at hk
    omega

/-- The loop of `sy_request_handle_headers` consumes a byte in every round but the last. -/
theorem headersLoop_fuel {n m : ℕ} (hn : s.r.rb.size < n) (hm : s.r.rb.size < m) :
    headersLoop cfg e n s = headersLoop cfg e m s := by
  induction n generalizing m s with
  | zero => omega
  | succ n ih =>
      cases m with
      | zero => omega
      | succ m =>
          cases hp : parseHeaderLine s.r with
          | error f => rw [headersLoop, headersLoop, hp]; rfl
          | ok p =>
              obtain ⟨err, r⟩ := p
              cases err with
              | ok =>
                  have hsize := parseHeaderLine_size hp
                  have hrec : ∀ s₁ : Session, s₁.r.rb = r.rb →
                      headersLoop cfg e n s₁ = headersLoop cfg e m s₁ := by
                    intro s₁ hrb
                    refine ih ?_ ?_ <;> rw [hrb] <;> omega
                  rw [headersLoop_line hp, headersLoop_line hp]
                  cases cfg.headerGet r.mem r.headerName with
                  | none => exact hrec _ rfl
                  | some v =>
                      dsimp only
                      cases hrun : v.processor.run e.date v.offset { s with r := r } with
                      | error f => rfl
                      | ok p =>
                          have := hrec p.2 (Processor.run_rb (s := { s with r := r }) hrun)
                          show (if p.1 ≠ .ok then _ else _) = (if p.1 ≠ .ok then _ else _)
                          rw [this]
              | _ => rw [headersLoop, headersLoop, hp]; rfl

end client

/-! ### The response -/

/-- What the loop of `sy_handle_response` can have changed. -/
def Sent (s s' : Session) : Prop :=
  ∃ sb oh done fd out, ∃ ds : List Output, ∃ fds : List (Ledger.Entry ℕ), s' = { s with
      r := { s.r with sb := sb, outHandler := oh, responseDone := done, resourceFd := fd }
      c := { s.c with evOut := out }
      g := { s.g with fds := fds }
      log := (ds.map .delivered) ++ s.log } ∧
    sb.begin ≤ sb.end_ ∧ (sb.begin < sb.end_ → s.r.sb.begin < s.r.sb.end_ ∧ out = s.c.evOut) ∧
    (done = true → s.r.responseDone = true ∨ s.r.uc = none) ∧
    (s.r.responseDone = true → done = true) ∧ (out = true → s.c.evOut = true) ∧ s.FileAfter fd fds

section response

variable {e : Env} {s s' : Session} {rc : Rc}

theorem Sent.refl (hb : s.r.sb.begin ≤ s.r.sb.end_) : Sent s s :=
  ⟨_, _, _, _, _, [], _, rfl, hb, fun h => ⟨h, rfl⟩, .inl, id, id, .refl s⟩

theorem Sent.trans {s₁ s₂ : Session} (h : Sent s s₁) (h' : Sent s₁ s₂) : Sent s s₂ := by
  obtain ⟨sb, oh, done, fd, out, ds, fds, rfl, -, hp, hd, hk, ho, hf⟩ := h
  obtain ⟨sb', oh', done', fd', out', ds', fds', rfl, hb', hp', hd', hk', ho', hf'⟩ := h'
  refine ⟨sb', oh', done', fd', out', ds' ++ ds, fds', by simp, hb', fun h => ?_, fun h => ?_,
    fun h => hk' (hk h), fun h => ho (ho' h), ?_⟩
  · have h1 := hp' h
    have h2 := hp h1.1
    exact ⟨h2.1, h1.2.trans h2.2⟩
  · rcases hd' h with h1 | h1
    · exact hd h1
    · exact .inr h1
  · rcases hf with ⟨rfl, rfl⟩ | ⟨rfl, rfl⟩
    · exact hf'
    · rcases hf' with ⟨h1, h2⟩ | ⟨h1, h2⟩
      · exact .inr ⟨h1, h2⟩
      · exact .inr ⟨h1, h2⟩

theorem responseBufferSent_sent (hb : s.r.sb.begin = s.r.sb.end_) :
    Sent s (responseBufferSent s).2 := by
  unfold responseBufferSent
  split_ifs with huc hfd
  · exact .refl hb.le
  · exact ⟨_, _, _, _, _, [], _, rfl, hb.le, fun h => absurd h (by omega), .inl, id, id, .refl s⟩
  · exact ⟨_, _, _, _, _, [], _, rfl, hb.le, fun h => absurd h (by omega),
      fun _ => .inr (not_not.mp huc), fun _ => rfl, (fun h => by cases h), .refl s⟩

theorem sendResponseBuffer_sent (hb : s.r.sb.begin ≤ s.r.sb.end_) :
    Sent s (sendResponseBuffer e s).2 := by
  obtain ⟨rc, n, hn, hsend, hrc⟩ := Buffer.send_spec e.sends s.r.sb hb
  have hsent : ∀ b d, b.begin ≤ b.end_ → (b.begin < b.end_ → s.r.sb.begin < s.r.sb.end_) →
      Sent s ({ s with r := { s.r with sb := b } }.note (.delivered (.buffer d))) := fun b d h1 h2 =>
    ⟨b, _, _, _, _, [.buffer d], _, rfl, h1, fun h => ⟨h2 h, rfl⟩, .inl, id, id, .refl s⟩
  unfold sendResponseBuffer
  rw [hsend]
  rcases hrc with ⟨rfl, -⟩ | ⟨hrc, hlt⟩
  · rw [if_pos rfl]
    exact (hsent s.r.sb.clear _ le_rfl fun h => absurd h (lt_irrefl _)).trans
      (responseBufferSent_sent rfl)
  · have hpart := hsent { s.r.sb with begin := s.r.sb.begin + n }
      (s.r.sb.slice s.r.sb.begin (s.r.sb.begin + n)) hn fun _ => by omega
    rcases hrc with rfl | rfl
    · exact hpart
    · exact hpart

theorem OutHandler.run_sent (hb : s.r.sb.begin ≤ s.r.sb.end_)
    (h : s.r.outHandler.run e s = .ok (rc, s')) : Sent s s' := by
  cases hout : s.r.outHandler <;> rw [hout] at h
  case buffer =>
      have hsent := sendResponseBuffer_sent (e := e) hb
      rwa [show sendResponseBuffer e s = (rc, s') from Except.ok.inj h] at hsent
  case file =>
      unfold OutHandler.run sendResponseFile at h
      dsimp only at h
      split_ifs at h with huc hfile
      · cases h
        rw [Shared.closeFile_fds]
        exact ⟨_, _, _, _, _, [.file _], _, rfl, hb, fun h => ⟨h, rfl⟩, fun _ => .inr (not_not.mp huc),
          fun _ => rfl, id, .inr ⟨rfl, rfl⟩⟩
      · cases h
        exact ⟨_, _, _, _, _, [.file _], s.g.fds, rfl, hb, fun h => ⟨h, rfl⟩, .inl, id, id, .refl s⟩

theorem responseLoop_sent {n : ℕ} (hb : s.r.sb.begin ≤ s.r.sb.end_)
    (h : responseLoop e n s = .ok (rc, s')) : Sent s s' := by
  induction n generalizing s with
  | zero => cases h; exact .refl hb
  | succ n ih =>
      obtain ⟨⟨err, s₁⟩, h1, h2⟩ := bind_ok h
      have hs := OutHandler.run_sent hb h1
      dsimp only at h2
      split_ifs at h2
      · have hb₁ : s₁.r.sb.begin ≤ s₁.r.sb.end_ := by
          obtain ⟨sb, _, _, _, _, _, _, rfl, hb₁, -⟩ := hs
          exact hb₁
        exact hs.trans (ih hb₁ h2)
      · cases h2
        exact hs

/-- The two ends of `sy_handle_response`. -/
inductive ResponseMove (s : Session) : Session → Prop
  | sent {s' : Session} (hs : Sent s s')
      (hd : ¬ (s'.r.responseDone = true ∧ s'.r.keepAlive = true)) : ResponseMove s s'
  | cleared {s' : Session} (hs : Sent s s') (hd : s'.r.responseDone = true)
      (hk : s'.r.keepAlive = true) : ResponseMove s s'.clear

/-- **A call of `sy_handle_response`.** -/
theorem handleResponse_move (hb : s.r.sb.begin ≤ s.r.sb.end_)
    (h : handleResponse e s = .ok (rc, s')) : ResponseMove s s' := by
  obtain ⟨⟨err, s₁⟩, h1, h2⟩ := bind_ok h
  have hs := responseLoop_sent hb h1
  dsimp only at h2
  split_ifs at h2 with hd hk
  · cases h2; exact .cleared hs hd hk
  · cases h2; exact .sent hs fun hc => hk hc.2
  · cases h2; exact .sent hs fun hc => hd hc.1

theorem responseBufferSent_file (h : (responseBufferSent s).1 = .ok)
    (hd : (responseBufferSent s).2.r.responseDone = false) :
    (responseBufferSent s).2.r.outHandler = .file := by
  unfold responseBufferSent at h hd ⊢
  split_ifs at h hd ⊢
  · cases h
    rfl

theorem sendResponseBuffer_file (h : (sendResponseBuffer e s).1 = .ok)
    (hd : (sendResponseBuffer e s).2.r.responseDone = false) :
    (sendResponseBuffer e s).2.r.outHandler = .file := by
  unfold sendResponseBuffer at h hd ⊢
  dsimp only at h hd ⊢
  by_cases hs : (s.r.sb.send e.sends).1 = .ok
  · rw [if_pos hs] at h hd ⊢
    exact responseBufferSent_file h hd
  · rw [if_neg hs] at h
    split_ifs at h

/-- The loop of `sy_handle_response` makes two rounds at most. -/
theorem responseLoop_fuel (n : ℕ) : responseLoop e (n + 2) s = responseLoop e 2 s := by
  have hfile : ∀ (n : ℕ) (s : Session), s.r.outHandler = .file →
      responseLoop e (n + 1) s = responseLoop e 1 s := by
    intro n s hf
    unfold responseLoop
    rw [hf]
    simp only [OutHandler.run, sendResponseFile, Bind.bind, Except.bind]
    split_ifs <;> simp_all
  rw [show n + 2 = (n + 1) + 1 by omega, responseLoop, responseLoop.eq_2 (n := 1)]
  cases hout : s.r.outHandler with
  | file =>
      simp only [OutHandler.run, sendResponseFile, Bind.bind, Except.bind]
      split_ifs <;> simp_all
  | buffer =>
      simp only [OutHandler.run, Bind.bind, Except.bind]
      split_ifs with hgo
      · exact hfile n _ (sendResponseBuffer_file hgo.1 hgo.2)
      · rfl

end response

/-! ### The upstream connection -/

/-- The outcomes of `sy_handle_pass`. -/
inductive PassMove (e : Env) (s : Session) : Session → Prop
  | done (hsend : s.r.rb.send e.sends = (.ok, s.r.rb.clear, s.r.rb.pending)) :
      PassMove e s { s with
        r := { s.r with rb := s.r.rb.clear }, c := enableIn s.c, u := disableOut s.u
        log := .forwarded s.r.rb.pending :: s.log }
  | part {n : ℕ} (hn : s.r.rb.begin + n < s.r.rb.end_) :
      PassMove e s { s with
        r := { s.r with rb := { s.r.rb with begin := s.r.rb.begin + n } }
        log := .forwarded (s.r.rb.slice s.r.rb.begin (s.r.rb.begin + n)) :: s.log }
  | failed {n : ℕ} {b : Buffer} (hn : s.r.rb.begin + n < s.r.rb.end_)
      (hsend : (s.r.rb.send e.sends).1 = .error) (hb : Grows s.r.sb b) :
      PassMove e s ({ s with
        r := { s.r with rb := { s.r.rb with begin := s.r.rb.begin + n } }
        log := .forwarded (s.r.rb.slice s.r.rb.begin (s.r.rb.begin + n)) :: s.log }.errored 503 b)

/-- The outcomes of `sy_handle_upstream`. -/
inductive UpstreamMove (e : Env) (s : Session) : Session → Prop
  | more {d : List UInt8} (hrecv : s.r.sb.recv e.recvs = (.again, s.r.sb.put d, d)) :
      UpstreamMove e s { s with
        r := { s.r with sb := s.r.sb.put d }, c := enableOut s.c, log := .relayed d :: s.log }
  | eof {d : List UInt8} (hrecv : s.r.sb.recv e.recvs = (.ok, s.r.sb.put d, d)) :
      UpstreamMove e s { s with
        r := { s.r with sb := s.r.sb.put d }, log := .relayed d :: s.log }
  | failed {d : List UInt8} {b : Buffer} (hrecv : s.r.sb.recv e.recvs = (.error, s.r.sb.put d, d))
      (hb : Grows (s.r.sb.put d) b) :
      UpstreamMove e s ({ s with
        r := { s.r with sb := s.r.sb.put d }, log := .relayed d :: s.log }.errored 503 b)

section upstream

variable {e : Env} {s s' : Session} {rc : Rc}

/-- **A call of `sy_handle_pass`.** -/
theorem handlePass_move (hb : s.r.rb.begin ≤ s.r.rb.end_) (h : handlePass e s = .ok (rc, s')) :
    PassMove e s s' := by
  obtain ⟨err, n, hn, hsend, hrc⟩ := Buffer.send_spec e.sends s.r.rb hb
  unfold handlePass at h
  rw [hsend] at h
  dsimp only [Session.note] at h
  rcases hrc with ⟨rfl, he⟩ | ⟨hrc, hlt⟩
  · rw [if_pos rfl, if_pos rfl, he] at h
    cases h
    refine .done ?_
    rw [hsend, if_pos rfl, he]
    rfl
  · rcases hrc with rfl | rfl
    · cases h
      exact .part hlt
    · obtain ⟨⟨rc', s₁⟩, h1, h2⟩ := bind_ok h
      cases h2
      obtain ⟨-, b, hb, rfl⟩ := responseBuildErr_spec h1
      exact .failed hlt (by rw [hsend]) hb

/-- **A call of `sy_handle_upstream`.** -/
theorem handleUpstream_move (h : handleUpstream e s = .ok (rc, s')) : UpstreamMove e s s' := by
  obtain ⟨err, d, hrecv, hrc, -⟩ := Buffer.recv_spec e.recvs s.r.sb
  unfold handleUpstream at h
  rw [hrecv] at h
  dsimp only [Session.note] at h
  rcases hrc with rfl | rfl | rfl
  · cases h
    exact .eof hrecv
  · cases h
    exact .more hrecv
  · obtain ⟨⟨rc', s₁⟩, h1, h2⟩ := bind_ok h
    cases h2
    obtain ⟨-, b, hb, rfl⟩ := responseBuildErr_spec h1
    exact .failed hrecv hb

end upstream

end SyServer
