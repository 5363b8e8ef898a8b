import SyServer.Deaths
import SyServer.KeepAlive
import SyServer.Lib.Ledger
import SyServer.Ownership

/-! # The descriptors

What `accept`, `socket` and `openat` answer is held by a connection or by a request, and closed by
its holder: that is `Booked`, next to the ledger `Shared.fds`.  It fails

* where `inet_pton` or `connect` fails in `sy_uwsgi_open_connection`, which returns without closing
  its socket,
* where the sweep closes a front connection whose request still has its `resource_fd`.

With such steps excluded every descriptor that is open has its holder, and nothing is closed twice
(`descriptors_accounted`). -/

namespace SyServer

open Ledger (Booked Fresh)
open Relation (ReflTransGen)
open Transition (Reach exec along_true exists_of_any kept_of_moves)

/-! ### Holders -/

/-- Who holds a descriptor: a connection its socket, a request its file. -/
inductive Holder where
  | conn (a : ConnAddr)
  | file (q : ReqAddr)
deriving DecidableEq, Repr

/-- What the holders of a worker hold: `c->fd` and `r->resource_fd`. -/
def Server.holds (v : Server) : Holder → Option ℕ
  | .conn a => if v.Live a then some (v.conns a).fd else none
  | .file q => if v.reqPool.Live q then (v.reqs q).resourceFd else none

/-- What the holders hold, with the upstream connection and the file of a session put in. -/
def Session.holds (s : Session) (o : Holder → Option ℕ) : Holder → Option ℕ
  | .conn a => if s.r.uc = some a then some s.u.fd else o (.conn a)
  | .file q => if q = s.self then s.r.resourceFd else o (.file q)

/-- The change of a session keeps the books. -/
structure Books (o : Holder → Option ℕ) (s s' : Session) : Prop where
  booked : Booked s.g.fds (s.holds o) → Booked s'.g.fds (s'.holds o)
  fd : s'.c.fd = s.c.fd

section sessions

variable {o : Holder → Option ℕ} {cfg : Config} {e : Env} {s s' : Session} {rc : Rc}

theorem Books.refl (o : Holder → Option ℕ) (s : Session) : Books o s s := ⟨id, rfl⟩

theorem Books.trans {s₁ s₂ s₃ : Session} (h : Books o s₁ s₂) (h' : Books o s₂ s₃) : Books o s₁ s₃ :=
  ⟨fun hb => h'.booked (h.booked hb), h'.fd.trans h.fd⟩

theorem holds_conn (huc : s'.r.uc = s.r.uc) (hu : s'.u.fd = s.u.fd) (a : ConnAddr) :
    s'.holds o (.conn a) = s.holds o (.conn a) := by
  unfold Session.holds
  rw [huc, hu]

theorem holds_file (hself : s'.self = s.self) (hfile : s'.r.resourceFd = s.r.resourceFd) (q : ReqAddr) :
    s'.holds o (.file q) = s.holds o (.file q) := by
  unfold Session.holds
  rw [hself, hfile]

theorem holds_self (o : Holder → Option ℕ) (s : Session) : s.holds o (.file s.self) = s.r.resourceFd :=
  if_pos rfl

theorem holds_other {q : ReqAddr} (hself : s'.self = s.self) (hq : q ≠ s.self) :
    s'.holds o (.file q) = s.holds o (.file q) := by
  have hq' : q ≠ s'.self := by
    rw [hself]
    exact hq
  exact (if_neg hq').trans (if_neg hq).symm

/-- A change after which the file is the same, or closed. -/
theorem books_of_file (hself : s'.self = s.self) (huc : s'.r.uc = s.r.uc) (hu : s'.u.fd = s.u.fd)
    (hc : s'.c.fd = s.c.fd) (hfile : s.FileAfter s'.r.resourceFd s'.g.fds) : Books o s s' := by
  refine ⟨fun hb => ?_, hc⟩
  have hsame : s'.r.resourceFd = s.r.resourceFd → s'.holds o = s.holds o := by
    intro h
    funext i
    cases i with
    | conn a => exact holds_conn huc hu a
    | file q => exact holds_file hself h q
  rcases hfile with ⟨h1, h2⟩ | ⟨h1, h2⟩
  · rw [hsame h1, h2]
    exact hb
  · cases hfd : s.r.resourceFd with
    | none =>
        rw [hsame (h1.trans hfd.symm), h2, hfd]
        exact hb
    | some fd =>
        rw [h2, hfd]
        refine hb.close_from (i := .file s.self) ((holds_self o s).trans hfd) ?_ fun j hj => ?_
        · rw [← hself, holds_self, h1]
        · cases j with
          | conn a => exact holds_conn huc hu a
          | file q => exact holds_other hself fun h => hj (congrArg _ h)

/-! ### Behind the request line -/

/-- The request line is complete, or answered. -/
def Session.Behind (s : Session) : Prop := s.r.inHandler ≠ .requestLine ∨ s.r.bodyDone = true

theorem Session.Behind.not_fresh (h : s.Behind) (hin : s.r.inHandler = .requestLine)
    (hopen : s.r.bodyDone = false) : False := by
  rcases h with h | h
  · exact h hin
  · rw [h] at hopen
    cases hopen

theorem books_behind (h : s.Behind) (hm : ClientMove cfg s s') : Books o s s' ∧ s'.Behind := by
  have hsame : ∀ {t : Session}, t.self = s.self → t.r.uc = s.r.uc → t.u.fd = s.u.fd → t.c.fd = s.c.fd →
      t.r.resourceFd = s.r.resourceFd → t.g.fds = s.g.fds → Books o s t := by
    intro t h1 h2 h3 h4 h5 h6
    exact books_of_file h1 h2 h3 h4 (.inl ⟨h5, h6⟩)
  have hheader : ∀ {rc r}, parseHeaderLine s.r = .ok (rc, r) →
      r.uc = s.r.uc ∧ r.resourceFd = s.r.resourceFd ∧ r.inHandler = s.r.inHandler := by
    intro rc r hp
    obtain ⟨_, _, _, _, rfl, -, -⟩ := parseHeaderLine_frame hp
    exact ⟨rfl, rfl, rfl⟩
  cases hm with
  | called => exact ⟨hsame rfl rfl rfl rfl rfl rfl, h⟩
  | lineMore hopen hin => exact (h.not_fresh hin hopen).elim
  | lineError status hopen hin => exact (h.not_fresh hin hopen).elim
  | lineOk k hopen hin => exact (h.not_fresh hin hopen).elim
  | headersMore hin hp =>
      obtain ⟨h1, h2, h3⟩ := hheader hp
      exact ⟨hsame rfl h1 rfl rfl h2 rfl, .inl (by rw [h3, hin]; simp)⟩
  | header hin hp =>
      obtain ⟨h1, h2, h3⟩ := hheader hp
      exact ⟨hsame rfl h1 rfl rfl h2 rfl, .inl (by rw [h3, hin]; simp)⟩
  | headerSet hs k te n hin hp =>
      obtain ⟨h1, h2, h3⟩ := hheader hp
      exact ⟨hsame rfl h1 rfl rfl h2 rfl, .inl (by simp [h3, hin])⟩
  | headerError hs status hin hp =>
      obtain ⟨h1, h2, -⟩ := hheader hp
      exact ⟨hsame rfl h1 rfl rfl h2 rfl, .inr rfl⟩
  | headersEnd hin hp =>
      obtain ⟨h1, h2, -⟩ := hheader hp
      exact ⟨hsame rfl h1 rfl rfl h2 rfl, .inl (by simp)⟩
  | bodyMore n hin => exact ⟨hsame rfl rfl rfl rfl rfl rfl, .inl (by simp [rbRewind, hin])⟩
  | bodyRelayed => exact ⟨hsame rfl rfl rfl rfl rfl rfl, .inr rfl⟩
  | bodyLocal n fd hin huc hb hcall fds hfile =>
      exact ⟨books_of_file rfl rfl rfl rfl hfile, .inr rfl⟩

theorem books_moves (h : s.Behind) (hm : ReflTransGen (ClientMove cfg) s s') : Books o s s' := by
  have hkept := kept_of_moves (fun t => Books o s t ∧ t.Behind)
    (fun t t' ht hmove =>
      have hlast := books_behind ht.2 hmove
      ⟨ht.1.trans hlast.1, hlast.2⟩) ⟨.refl o s, h⟩ hm
  exact hkept.1

theorem books_receive (d : List UInt8) : Books o s (s.receive d) :=
  books_of_file rfl rfl rfl rfl (.refl s)

theorem books_late (hm : LateMove s s') : Books o s s' := by
  cases hm with
  | aborted => exact books_of_file rfl rfl rfl rfl (.refl s)
  | empty => exact books_of_file rfl rfl rfl rfl (.refl s)

/-! ### The other handlers -/

theorem books_upstream (hm : UpstreamMove e s s') : Books o s s' := by
  cases hm <;> exact books_of_file rfl rfl rfl rfl (.refl s)

theorem books_pass (hm : PassMove e s s') : Books o s s' := by
  cases hm <;> exact books_of_file rfl rfl rfl rfl (.refl s)

/-- A request is reset behind its file. -/
theorem books_response {p : Bool} (hb : Base p s) (h : handleResponse e s = .ok (rc, s')) :
    Books o s s' := by
  obtain ⟨⟨err, t⟩, h1, h2⟩ := bind_ok h
  have hs := responseLoop_sent hb.sb h1
  have hsent : Books o s t := by
    obtain ⟨sb, oh, done, fd, out, ds, fds, rfl, -, -, -, -, -, hfile⟩ := hs
    exact books_of_file rfl rfl rfl rfl hfile
  dsimp only at h2
  split_ifs at h2 with hd hk
  · cases h2
    have hfd := responseLoop_closed (hb.cleared hs hd hk).2 h1 hd
    exact hsent.trans (books_of_file rfl rfl rfl rfl (.inl ⟨hfd.symm, rfl⟩))
  · cases h2
    exact hsent
  · cases h2
    exact hsent

/-! ### The request line -/

/-- The location of the request is proxied. -/
def Request.passes (cfg : Config) (r : Request) : Bool :=
  match matchLocation r.mem r.uri.absPath.data cfg.locations with
  | .ok (some loc) => loc.pass
  | _ => false

/-- A connection that is not open holds nothing. -/
def Spare (o : Holder → Option ℕ) (g : Shared) : Prop := ∀ a, ¬ g.pool.Live a → o (.conn a) = none

theorem holds_spare (ho : Spare o s.g) (huc : s.r.uc = none) {a : ConnAddr} (ha : ¬ s.g.pool.Live a) :
    s.holds o (.conn a) = none := by
  simp [Session.holds, huc, ho a ha]

/-- An upstream is opened, or its socket closed. -/
theorem books_uwsgi {uc : Option ConnAddr} (hp : s.g.pool.Ok) (ho : Spare o s.g) (huc : s.r.uc = none)
    (hpton : e.upstream.pton = true) (hconnect : e.upstream.connect = true)
    (h : uwsgiOpenConnection e.upstream true s = .ok (uc, s')) :
    Books o s { s' with r := { s'.r with uc := uc } } := by
  obtain ⟨a, pool, ha⟩ : ∃ a pool, s.g.pool.alloc = (a, pool) := ⟨_, _, rfl⟩
  obtain ⟨-, hnew, -⟩ := Pool.alloc_spec hp ha
  have hspare := holds_spare ho huc hnew
  have hclosed : ∀ {t : Session}, t.self = s.self → t.r.uc = none → t.c.fd = s.c.fd →
      t.r.resourceFd = s.r.resourceFd → t.g.fds = ((s.g.openFd e.upstream.fd).closeFd e.upstream.fd).fds →
        Books o s t := by
    intro t h1 h2 h3 h4 h5
    refine ⟨fun hb => ?_, h3⟩
    have hsame : t.holds o = s.holds o := by
      funext i
      cases i with
      | conn x =>
          unfold Session.holds
          rw [h2, huc]
          simp
      | file q => exact holds_file h1 h4 q
    rw [h5, hsame]
    exact hb.both hspare
  unfold uwsgiOpenConnection at h
  rw [hpton, hconnect, if_neg (by simp)] at h
  dsimp only [Shared.openFd] at h
  rw [if_neg (by simp), ha] at h
  dsimp only at h
  obtain ⟨ok, heap, hreg⟩ : ∃ ok heap, (s.g.heap.setTime a e.upstream.now).register a = (ok, heap) :=
    ⟨_, _, rfl⟩
  rw [hreg] at h
  cases ok with
  | false =>
      obtain ⟨g, h1, h2⟩ := bind_ok h
      cases h2
      obtain ⟨heap', -, rfl⟩ := closeBack_ok h1
      exact hclosed rfl rfl rfl rfl rfl
  | true =>
      dsimp only at h
      split_ifs at h
      · obtain ⟨g, h1, h2⟩ := bind_ok h
        cases h2
        obtain ⟨heap', -, rfl⟩ := closeBack_ok h1
        exact hclosed rfl rfl rfl rfl rfl
      · cases h
        refine ⟨fun hb => hb.open_to (i := .conn a) hspare (by simp [Session.holds]) fun j hj => ?_, rfl⟩
        cases j with
        | conn x =>
            have hx : a ≠ x := fun hx => hj (by rw [hx])
            unfold Session.holds
            simp [huc, hx]
        | file q => exact holds_file rfl rfl q

/-- A file is opened, from a directory that is closed again or not. -/
theorem books_open (hself : s'.self = s.self) (huc : s'.r.uc = s.r.uc) (hu : s'.u.fd = s.u.fd)
    (hc : s'.c.fd = s.c.fd) (hnone : s.r.resourceFd = none) {a : ConnAddr}
    (ha : s.holds o (.conn a) = none) {fd : ℕ} (hfd : s'.r.resourceFd = some fd)
    (hfds : s'.g.fds = (s.g.openFd fd).fds ∨
      ∃ dir, s'.g.fds = (((s.g.openFd dir).openFd fd).closeFd dir).fds) : Books o s s' := by
  refine ⟨fun hb => ?_, hc⟩
  have hi : s.holds o (.file s.self) = none := (holds_self o s).trans hnone
  have ho : s'.holds o (.file s.self) = some fd := by
    rw [← hself, holds_self, hfd]
  have hother : ∀ j, j ≠ .file s.self → s'.holds o j = s.holds o j := by
    intro j hj
    cases j with
    | conn x => exact holds_conn huc hu x
    | file q => exact holds_other hself fun hq => hj (by rw [hq])
  rcases hfds with h | ⟨dir, h⟩
  · rw [h]
    exact hb.open_to hi ho hother
  · rw [h]
    exact hb.open_via hi ha (by simp) ho hother

/-- **`sy_request_handle_uri`**, where `inet_pton` and `connect` do not fail. -/
theorem books_uri (hp : s.g.pool.Ok) (ho : Spare o s.g) (huc : s.r.uc = none)
    (hnone : s.r.resourceFd = none)
    (hreach : s.r.passes cfg = true → e.upstream.pton = true ∧ e.upstream.connect = true)
    (h : requestHandleUri cfg e s = .ok (rc, s')) : Books o s s' := by
  have hfree : s.holds o (.conn s.g.pool.next) = none :=
    holds_spare ho huc fun hl => lt_irrefl _ hl.1
  have hpage : ∀ {status : ℕ} {t : Session}, Books o s t → responseBuildErr e.date status t = .ok (rc, s') →
      Books o s s' := by
    intro status t ht hpage
    obtain ⟨-, b, -, rfl⟩ := responseBuildErr_spec hpage
    exact ht.trans (books_of_file rfl rfl rfl rfl (.refl t))
  obtain ⟨r, h1, h2⟩ := bind_ok h
  obtain ⟨host, port, rfl⟩ := uriHost_frame h1
  obtain ⟨loc, hloc, h3⟩ := bind_ok h2
  cases loc with
  | none =>
      refine hpage ?_ h3
      exact books_of_file rfl rfl rfl rfl (.refl s)
  | some loc =>
      dsimp only at h3
      by_cases hpass : loc.pass = true
      · have hpasses : s.r.passes cfg = true := by
          unfold Request.passes
          rw [show matchLocation s.r.mem s.r.uri.absPath.data cfg.locations = _ from hloc]
          exact hpass
        obtain ⟨hpton, hconnect⟩ := hreach hpasses
        rw [if_pos hpass, hpass] at h3
        obtain ⟨⟨uc, s₁⟩, h4, h5⟩ := bind_ok h3
        have hbooks : Books o s { s₁ with r := { s₁.r with uc := uc } } := by
          refine .trans ?_ (books_uwsgi ?_ ?_ ?_ hpton hconnect h4)
          · exact books_of_file rfl rfl rfl rfl (.refl s)
          · exact hp
          · exact ho
          · exact huc
        dsimp only at h5
        split_ifs at h5
        · exact hpage hbooks h5
        · cases h5
          exact hbooks
      · rw [if_neg hpass] at h3
        obtain ⟨⟨r, path⟩, h4, h5⟩ := bind_ok h3
        obtain ⟨i, rfl⟩ := relPath_frame h4
        dsimp only [Session.note] at h5
        cases hres : e.resource path with
        | missing =>
            rw [hres] at h5
            refine hpage ?_ h5
            exact books_of_file rfl rfl rfl rfl (.refl s)
        | file fd size =>
            rw [hres] at h5
            cases h5
            exact books_open rfl rfl rfl rfl hnone hfree rfl (.inl rfl)
        | directory dir index =>
            rw [hres] at h5
            cases index with
            | none =>
                refine hpage ?_ h5
                refine ⟨fun hb => ?_, rfl⟩
                exact hb.both hfree
            | some p =>
                cases h5
                exact books_open rfl rfl rfl rfl hnone hfree rfl (.inr ⟨dir, rfl⟩)

/-- The bytes received complete a request line, and its location is proxied. -/
def Request.proxies (cfg : Config) (r : Request) : Bool :=
  match parseRequestLine r with
  | .ok (.ok, r) => r.version.major = 1 && r.version.minor ≤ 2 && r.passes cfg
  | _ => false

/-- A call of `sy_handle_request` that opens an upstream gets its address and connects. -/
def Reaches (cfg : Config) (v : View) : SessionEvent → Prop
  | .request e => (v.s.r.rb.recv e.recvs).1 = .again → v.s.r.inHandler = .requestLine →
      v.s.r.bodyDone = false → (v.s.receive (v.s.r.rb.recv e.recvs).2.2).r.proxies cfg = true →
        e.upstream.pton = true ∧ e.upstream.connect = true
  | _ => True

instance (cfg : Config) (v : View) : ∀ ev, Decidable (Reaches cfg v ev)
  | .request _ => inferInstanceAs (Decidable (_ = _ → _ = _ → _ = _ → _ = _ → _ ∧ _))
  | .poll _ | .share _ | .close | .response _ | .pass _ | .upstream _ => .isTrue trivial

/-- A request that has just begun has no file. -/
def NoFile (_ : Bool) (s : Session) : Prop :=
  s.r.inHandler = .requestLine → s.r.bodyDone = false → s.r.resourceFd = none

theorem books_requestLine (hp : s.g.pool.Ok) (ho : Spare o s.g) (huc : s.r.uc = none)
    (hnone : s.r.resourceFd = none)
    (hreach : s.r.proxies cfg = true → e.upstream.pton = true ∧ e.upstream.connect = true)
    (h : requestHandleRequestLine cfg e s = .ok (rc, s')) : Books o s s' := by
  obtain ⟨⟨err, r⟩, hparse, h2⟩ := bind_ok h
  have hproxies : s.r.proxies cfg = (match (Except.ok (err, r) : Except Fault (Rc × Request)) with
      | .ok (.ok, r) => r.version.major = 1 && r.version.minor ≤ 2 && r.passes cfg
      | _ => false) := by
    unfold Request.proxies
    rw [hparse]
  obtain ⟨_, _, _, _, _, _, rfl, -⟩ := parseRequestLine_frame hparse
  dsimp only at h2
  split_ifs at h2 with hagain hok hversion
  · cases h2
    exact books_of_file rfl rfl rfl rfl (.refl s)
  · obtain ⟨-, b, -, rfl⟩ := responseBuildErr_spec h2
    exact books_of_file rfl rfl rfl rfl (.refl s)
  · obtain ⟨-, b, -, rfl⟩ := responseBuildErr_spec h2
    exact books_of_file rfl rfl rfl rfl (.refl s)
  · refine .trans ?_ (books_uri ?_ ?_ ?_ ?_ (fun hpass => hreach ?_) h2)
    · exact books_of_file rfl rfl rfl rfl (.refl s)
    · exact hp
    · exact ho
    · exact huc
    · exact hnone
    · rw [hproxies, not_not.mp hok]
      obtain ⟨h1, h2⟩ := not_or.mp hversion
      have h3 := not_not.mp h1
      have h4 := not_lt.mp h2
      dsimp only at h3 h4 ⊢
      simp only [h3, h4, decide_true, Bool.true_and]
      exact hpass

theorem books_requestLoop {n : ℕ} (h : s.Behind) (hlate : ¬ s.Late)
    (hfirst : s.r.bodyDone = false ∨ ∃ d l, s.log = .received d :: l) :
    Books o s (requestLoop cfg e n s).2 := by
  have hrun : requestLoop cfg e n s = ((requestLoop cfg e n s).1, (requestLoop cfg e n s).2) := rfl
  exact books_moves h (requestLoop_moves hlate hfirst hrun).1

/-- **`sy_handle_request`**, where it reaches the upstream that it opens. -/
theorem books_handleRequest (hb : Base true s) (hf : NoFile true s) (hp : s.g.pool.Ok)
    (ho : Spare o s.g) (hgood : Reaches cfg ⟨true, s⟩ (.request e)) :
    Books o s (handleRequest cfg e s).2 := by
  by_cases hl : s.Late
  · have hrun : handleRequest cfg e s = ((handleRequest cfg e s).1, (handleRequest cfg e s).2) := rfl
    obtain ⟨d, -, h | ⟨-, hm⟩⟩ := handleRequest_late hl (hb.late_pending hl) hrun
    · rw [h]
      exact books_receive d
    · exact (books_receive d).trans (books_late hm)
  obtain ⟨rc, d, hrecv, -, -⟩ := Buffer.recv_spec e.recvs s.r.rb
  unfold handleRequest
  dsimp only [Reaches] at hgood
  rw [hrecv] at hgood ⊢
  dsimp only at hgood ⊢
  split_ifs with hrc
  · exact books_receive d
  refine (books_receive d).trans ?_
  change Books o _ (requestLoop cfg e 3 (s.receive d)).2
  have hlate : ¬ (s.receive d).Late := hl
  by_cases hbehind : (s.receive d).Behind
  · exact books_requestLoop hbehind hlate (.inr ⟨d, s.log, rfl⟩)
  obtain ⟨hin, hopen⟩ := not_or.mp hbehind
  have hin : (s.receive d).r.inHandler = .requestLine := not_not.mp hin
  have hopen : (s.receive d).r.bodyDone = false := Bool.eq_false_of_not_eq_true hopen
  have hline : ∀ {rc s'}, (s.receive d).r.inHandler.run cfg e
      ((s.receive d).note (.called (s.receive d).r.inHandler (s.receive d).r.state)) = .ok (rc, s') →
        Books o (s.receive d) s' := by
    intro rc s' hrun
    rw [hin] at hrun
    have huc : s.r.uc = none := (hb.fresh hin hopen).2.1
    refine .trans ?_ (books_requestLine (s := (s.receive d).note _) ?_ ?_ ?_ ?_
      (hgood (not_not.mp hrc) hin hopen) hrun)
    · exact books_of_file rfl rfl rfl rfl (.refl _)
    · exact hp
    · exact ho
    · exact huc
    · exact hf hin hopen
  apply requestLoop_round (P := fun x => Books o (s.receive d) x.2)
  · intro f _
    exact books_of_file rfl rfl rfl rfl (.refl _)
  · intro rc s' hrun _
    exact hline hrun
  · intro s' hrun hd
    refine (hline hrun).trans ?_
    rw [hin] at hrun
    have hin' : s'.r.inHandler = .headers := by
      rcases requestHandleRequestLine_ok hrun with hd' | hin'
      · rw [hd] at hd'
        cases hd'
      · exact hin'
    refine books_requestLoop (.inl (by rw [hin']; simp)) (fun hl => ?_) (.inl hd)
    rw [hl.1] at hd
    cases hd

theorem invariant_noFile (cfg : Config) : Invariant cfg (fun _ _ => True) NoFile (NoFile false) where
  share _ _ _ h := h
  poll _ _ _ _ _ h := h
  receive _ _ _ h := h
  call _ _ _ _ _ _ _ _ h := h
  client s s' hb h hm := by
    have hbusy : ∀ {t : Session}, t.Behind → NoFile false t := fun hin h1 h2 => (hin.not_fresh h1 h2).elim
    have hline : ∀ {rc r}, parseRequestLine s.r = .ok (rc, r) →
        r.resourceFd = s.r.resourceFd ∧ r.bodyDone = s.r.bodyDone ∧ r.inHandler = s.r.inHandler := by
      intro rc r hp
      obtain ⟨_, _, _, _, _, _, rfl, -⟩ := parseRequestLine_frame hp
      exact ⟨rfl, rfl, rfl⟩
    by_cases hbehind : s.Behind
    · exact hbusy (books_behind (o := fun _ => none) hbehind hm).2
    · cases hm with
      | called => exact h
      | lineMore hopen hin hp =>
          obtain ⟨h1, h2, h3⟩ := hline hp
          exact fun _ _ => h1.trans (h hin hopen)
      | lineError => exact hbusy (.inr rfl)
      | lineOk k hopen hin hp huri =>
          apply hbusy
          cases huri with
          | notFound => exact .inr rfl
          | refused => exact .inr rfl
          | missing => exact .inr rfl
          | proxied => exact .inl (by simp)
          | found => exact .inl (by simp)
      | headersMore hin => exact absurd (.inl (by rw [hin]; simp)) hbehind
      | header hin => exact absurd (.inl (by rw [hin]; simp)) hbehind
      | headerSet hs k te n hin => exact absurd (.inl (by rw [hin]; simp)) hbehind
      | headerError hs status hin => exact absurd (.inl (by rw [hin]; simp)) hbehind
      | headersEnd hin => exact absurd (.inl (by rw [hin]; simp)) hbehind
      | bodyMore n hin => exact absurd (.inl (by rw [hin]; simp)) hbehind
      | bodyRelayed n hin => exact absurd (.inl (by rw [hin]; simp)) hbehind
      | bodyLocal n fd hin => exact absurd (.inl (by rw [hin]; simp)) hbehind
  late s s' e d _ _ _ _ _ h hm := by
    cases hm with
    | aborted => exact h
    | empty => exact h
  return_ _ _ h := h
  pass p s s' e _ _ _ _ h hm := by
    cases hm with
    | done => exact h
    | part => exact h
    | failed => exact fun _ hd => by cases hd
  upstream p s s' e _ _ _ h hm := by
    cases hm with
    | more => exact h
    | eof => exact h
    | failed => exact fun _ hd => by cases hd
  response p s s' hb hout h hm := by
    cases hm with
    | sent hs hnot =>
        obtain ⟨sb, oh, done, fd, out, ds, fds, rfl, -⟩ := hs
        intro hin hd
        exact absurd (hout.symm.trans (hb.fresh hin hd).2.2.1) (by simp)
    | cleared => exact fun _ _ => rfl
  close _ _ _ _ h := h

end sessions

/-! ### The worker -/

namespace Server

/-- What is open is held. -/
def Balanced (v : Server) : Prop := Booked v.g.fds v.holds

section memory

variable {v v' : Server} {a : ConnAddr} {s : Session}

theorem holds_live (ha : v.Live a) : v.holds (.conn a) = some (v.conns a).fd := if_pos ha

theorem holds_closed (ha : ¬ v.Live a) : v.holds (.conn a) = none := if_neg ha

theorem holds_request {q : ReqAddr} (hq : v.reqPool.Live q) : v.holds (.file q) = (v.reqs q).resourceFd :=
  if_pos hq

theorem holds_conn_lt (v : Server) {fd : ℕ} (h : v.holds (.conn a) = some fd) : a < v.g.pool.next := by
  by_cases ha : v.Live a
  · exact ha.1
  · rw [holds_closed ha] at h
    cases h

theorem holds_file_lt (v : Server) {q : ReqAddr} {fd : ℕ} (h : v.holds (.file q) = some fd) :
    q < v.reqPool.next := by
  by_cases hq : v.reqPool.Live q
  · exact hq.1
  · rw [show v.holds (.file q) = none from if_neg hq] at h
    cases h

theorem spare_holds (v : Server) : Spare v.holds v.g := fun _ ha => holds_closed ha

theorem holds_congr {x : ConnAddr} (hlive : v'.Live x ↔ v.Live x)
    (hfd : v.Live x → (v'.conns x).fd = (v.conns x).fd) : v'.holds (.conn x) = v.holds (.conn x) := by
  by_cases hx : v.Live x
  · rw [holds_live hx, holds_live (hlive.mpr hx), hfd hx]
  · rw [holds_closed hx, holds_closed fun hl => hx (hlive.mp hl)]

theorem SameMemory.holds (h : SameMemory v v') : v'.holds = v.holds := by
  funext i
  cases i with
  | conn x => exact holds_congr (h.live x) fun _ => by rw [h.conns]
  | file q =>
      unfold Server.holds
      dsimp only
      rw [h.reqs, h.reqPool]

theorem Balanced.same (h : v.Balanced) (hs : SameMemory v v') (hfds : v'.g.fds = v.g.fds) : v'.Balanced := by
  unfold Balanced
  rw [hs.holds, hfds]
  exact h

/-- The holders of a session are those of the worker. -/
theorem holds_session (hw : v.Wired) (ha : v.Front a) :
    (v.session (v.conns a).r).holds v.holds = v.holds := by
  funext i
  cases i with
  | conn x =>
      unfold Session.holds
      dsimp only
      split_ifs with hu
      · have huc : (v.reqs (v.conns a).r).uc = some x := hu
        rw [holds_live (hw.up a x ha huc).1]
        rw [session_u huc]
      · rfl
  | file q =>
      unfold Session.holds
      dsimp only
      split_ifs with hq
      · subst hq
        exact (holds_request (hw.front a ha).1).symm
      · rfl

/-- A session is written back. -/
theorem store_holds (hh : Handled v a s) (hfd : s.c.fd = (v.conns a).fd) :
    (v.store s).holds = s.holds v.holds := by
  funext i
  cases i with
  | conn x =>
      unfold Session.holds
      dsimp only
      by_cases hu : s.r.uc = some x
      · rw [if_pos hu, holds_live ((hh.live x).mpr (.inl hu)), store_conns_up hu]
      rw [if_neg hu]
      by_cases hx : v.Live x
      · rw [holds_live hx, holds_live ((hh.live x).mpr (.inr hx))]
        by_cases hxa : x = a
        · subst hxa
          rw [store_conns_self hh, hfd]
        · rw [store_conns_ne hh hxa hu]
      · rw [holds_closed hx, holds_closed fun hl => ((hh.live x).mp hl).elim hu hx]
  | file q =>
      have hlive := (hh.wired.front a hh.front).1
      unfold Session.holds
      dsimp only
      by_cases hq : q = s.self
      · rw [if_pos hq, hq, hh.self, holds_request (v := v.store s) hlive, store_reqs_self hh]
      · rw [if_neg hq]
        rw [hh.self] at hq
        unfold Server.holds
        dsimp only
        rw [store_reqs_ne hh hq]
        rfl

/-- A handler that keeps the books of its session keeps those of the worker. -/
theorem Balanced.store (h : v.Balanced) (hh : Handled v a s)
    (hb : Books v.holds (v.session (v.conns a).r) s) : (v.store s).Balanced := by
  have hfd : s.c.fd = (v.conns a).fd := hb.fd.trans (congrArg Connection.fd hh.session_c)
  unfold Balanced
  rw [store_holds hh hfd]
  apply hb.booked
  rw [holds_session hh.wired hh.front]
  exact h

/-! ### Closing -/

theorem closeBack_balanced (hw : v.Wired) (ha : v.Live a) (hside : (v.conns a).side = .back)
    (h : v.Balanced) (hclose : v.closeBack a = .ok v') : v'.Balanced := by
  obtain ⟨hc, -, -⟩ := closeBack_spec hw ha hside hclose
  obtain ⟨g, hg, hv⟩ := bind_ok hclose
  obtain ⟨heap, -, rfl⟩ := closeBack_ok hg
  cases hv
  refine h.close_from (i := .conn a) (holds_live ha) (holds_closed fun hl => ((hc.live a).mp hl).2 rfl)
    fun j hj => ?_
  cases j with
  | conn x =>
      have hx : x ≠ a := fun hx => hj (by rw [hx])
      exact holds_congr ((hc.live x).trans (and_iff_left hx)) fun _ => rfl
  | file q =>
      unfold Server.holds
      dsimp only
      by_cases hq : q = (v.conns a).r
      · subst hq
        rw [Function.update_self]
      · rw [Function.update_of_ne hq]

/-- What `sy_close_connection` closes on a front connection, and that it leaves the files. -/
theorem closeFront_fds (hclose : v.closeFront a = .ok v') :
    v'.g.fds = ((v.reqs (v.conns a).r).uc.elim [] fun u => [.closed (v.conns u).fd]) ++
        .closed (v.conns a).fd :: v.g.fds ∧
      ∀ q, (v'.reqs q).resourceFd = (v.reqs q).resourceFd := by
  cases closeFront_move hclose with
  | alone hun huc =>
      rw [huc]
      exact ⟨rfl, fun _ => rfl⟩
  | @upstream heap u v₂ hun huc hback =>
      rw [huc]
      obtain ⟨g, hg, hv⟩ := bind_ok hback
      obtain ⟨heap', -, rfl⟩ := closeBack_ok hg
      cases hv
      refine ⟨rfl, fun q => ?_⟩
      show (Function.update v.reqs (v.conns u).r _ q).resourceFd = _
      by_cases hq : q = (v.conns u).r
      · subst hq
        rw [Function.update_self]
        rfl
      · rw [Function.update_of_ne hq]

theorem closeFront_balanced (hw : v.Wired) (ha : v.Front a)
    (hnone : (v.reqs (v.conns a).r).resourceFd = none) (h : v.Balanced)
    (hclose : v.closeFront a = .ok v') : v'.Balanced := by
  obtain ⟨hc, -⟩ := closeFront_spec hw ha hclose
  obtain ⟨hfds, hfiles⟩ := closeFront_fds hclose
  have hq := (hw.front a ha).1
  have hlive := (Pool.release_spec hw.reqPool hq).2
  rw [← closeFront_reqPool hclose] at hlive
  -- the request is given back without a file
  have hfile : ∀ q, v'.holds (.file q) = v.holds (.file q) := by
    intro q
    by_cases hqa : q = (v.conns a).r
    · rw [hqa, holds_request hq, hnone]
      exact if_neg fun hl => ((hlive _).mp hl).2 rfl
    · by_cases hql : v.reqPool.Live q
      · rw [holds_request hql, holds_request ((hlive q).mpr ⟨hql, hqa⟩), hfiles]
      · exact (if_neg fun hl => hql ((hlive q).mp hl).1).trans (if_neg hql).symm
  have hconn : ∀ x, x ≠ a → (v.reqs (v.conns a).r).uc ≠ some x →
      v'.holds (.conn x) = v.holds (.conn x) := by
    intro x hxa hxu
    exact holds_congr ((hc.live x).trans (and_iff_left (not_or.mpr ⟨hxa, hxu⟩))) fun _ => by rw [hc.conns]
  have hgone : ∀ x, x = a ∨ (v.reqs (v.conns a).r).uc = some x → v'.holds (.conn x) = none :=
    fun x hx => holds_closed fun hl => ((hc.live x).mp hl).2 hx
  unfold Balanced
  rw [hfds]
  cases hu : (v.reqs (v.conns a).r).uc with
  | none =>
      refine h.close_from (i := .conn a) (holds_live ha.1) (hgone a (.inl rfl)) fun j hj => ?_
      cases j with
      | conn x => exact hconn x (fun hx => hj (by rw [hx])) (by rw [hu]; simp)
      | file q => exact hfile q
  | some u =>
      obtain ⟨hul, hus, -⟩ := hw.up a u ha hu
      have hau : u ≠ a := by
        rintro rfl
        have := ha.2.symm.trans hus
        cases this
      have hne : (Holder.conn u) ≠ .conn a := fun he => hau (Holder.conn.inj he)
      have h1 := h.closed (.conn a) _ (holds_live ha.1)
      refine h1.close_from (i := .conn u) ?_ (hgone u (.inr hu)) fun j hj => ?_
      · rw [Function.update_of_ne hne, holds_live hul]
      · by_cases hja : j = .conn a
        · rw [hja, Function.update_self]
          exact hgone a (.inl rfl)
        · rw [Function.update_of_ne hja]
          cases j with
          | conn x =>
              refine hconn x (fun hx => hja (by rw [hx])) fun hx => hj ?_
              rw [Option.some.inj (hu.symm.trans hx)]
          | file q => exact hfile q

/-- A connection is closed, a front connection with a request that has no file left; or the worker
dies of it. -/
theorem Balanced.settled (h : v.Balanced) (hw : v.Wired) (ha : v.Live a)
    (hnone : (v.conns a).side = .front → (v.reqs (v.conns a).r).resourceFd = none) :
    (v.settled (v.closeConnection a)).Balanced := by
  cases hclose : v.closeConnection a with
  | error f => exact h.same ⟨rfl, rfl, rfl, rfl, rfl⟩ rfl
  | ok v' =>
      unfold closeConnection at hclose
      cases hside : (v.conns a).side with
      | front =>
          rw [hside] at hclose
          exact closeFront_balanced hw ⟨ha, hside⟩ (hnone hside) h hclose
      | back =>
          rw [hside] at hclose
          exact closeBack_balanced hw ha hside h hclose

/-! ### Opening -/

theorem setUp_balanced (hw : v.Wired) (o : Opening) (h : v.Balanced) {v₁ : Server}
    (hset : v.setUp o = (a, v₁)) :
    v₁.Balanced ∧ (v₁.reqs (v₁.conns a).r).resourceFd = none := by
  obtain ⟨c, pool, hc⟩ : ∃ c pool, v.g.pool.alloc = (c, pool) := ⟨_, _, rfl⟩
  obtain ⟨q, reqPool, hq⟩ : ∃ q reqPool, v.reqPool.alloc = (q, reqPool) := ⟨_, _, rfl⟩
  unfold Server.setUp at hset
  rw [hc, hq] at hset
  cases hset
  obtain ⟨-, hnew, hlive⟩ := Pool.alloc_spec hw.pool hc
  obtain ⟨-, hrnew, hrlive⟩ := Pool.alloc_spec hw.reqPool hq
  refine ⟨?_, ?_⟩
  · refine h.open_to (i := .conn a) (holds_closed hnew) ?_ fun j hj => ?_
    · refine (if_pos ((hlive a).mpr (.inl rfl))).trans ?_
      dsimp only
      rw [Function.update_self]
    · cases j with
      | conn x =>
          have hx : x ≠ a := fun hx => hj (by rw [hx])
          refine holds_congr ((hlive x).trans (or_iff_right hx)) fun _ => ?_
          dsimp only
          rw [Function.update_of_ne hx]
      | file p =>
          unfold Server.holds
          dsimp only
          by_cases hp : p = q
          · subst hp
            rw [if_neg hrnew, Function.update_self]
            simp [requestInit]
          · rw [Function.update_of_ne hp]
            by_cases hpl : v.reqPool.Live p
            · rw [if_pos hpl, if_pos ((hrlive p).mpr (.inr hpl))]
            · rw [if_neg hpl, if_neg fun hl => hpl (((hrlive p).mp hl).resolve_left hp)]
  · dsimp only
    rw [Function.update_self]
    dsimp only
    rw [Function.update_self]
    rfl

theorem openConnection_balanced (hw : v.Wired) (o : Opening) (h : v.Balanced) :
    (v.openConnection o).Balanced := by
  obtain ⟨a, v₁, hset⟩ : ∃ a v₁, v.setUp o = (a, v₁) := ⟨_, _, rfl⟩
  obtain ⟨hopen, ha, -, -⟩ := setUp_spec hw o hset
  obtain ⟨hb, hnone⟩ := setUp_balanced hw o h hset
  have hm := Server.openConnection_move hset
  generalize v.openConnection o = v' at hm ⊢
  cases hm with
  | refused =>
      have hs := Server.sameMemory_heap v₁ v₁.g.heap true
      exact (hb.same hs rfl).settled (hs.wired hopen.wired) ((hs.live a).mpr ha.1) fun _ => hnone
  | @closed heap =>
      have hs := Server.sameMemory_heap v₁ heap v₁.g.refused
      exact (hb.same hs rfl).settled (hs.wired hopen.wired) ((hs.live a).mpr ha.1) fun _ => hnone
  | @done heap => exact hb.same (Server.sameMemory_heap v₁ heap v₁.g.refused) rfl

end memory

/-! ### Runs -/

section run

variable {cfg : Config} {v v' : Server} {l : Label}

/-- What the sweep takes from the root of the heap is open, and no front connection whose request has
its file. -/
def SweepsClean (cfg : Config) (v : Server) : Label → Prop
  | .sweep now => v.Due cfg now → v.Live (v.g.heap.conns 1) ∧
      ((v.conns (v.g.heap.conns 1)).side = .front →
        (v.reqs (v.conns (v.g.heap.conns 1)).r).resourceFd = none)
  | _ => True

instance (cfg : Config) (v : Server) : ∀ l, Decidable (v.SweepsClean cfg l)
  | .sweep _ => inferInstanceAs (Decidable (_ → _ ∧ (_ = _ → _ = _)))
  | .poll _ | .accept _ | .accepted | .serveIn _ _ | .serveOut _ _ => .isTrue trivial

/-- A step that opens an upstream reaches it, and a step that closes a connection leaves no file
behind. -/
def Tidies (cfg : Config) (v : Server) (l : Label) : Prop :=
  Meets cfg (Reaches cfg) v l ∧ v.SweepsClean cfg l

instance (cfg : Config) (v : Server) (l : Label) : Decidable (Tidies cfg v l) :=
  inferInstanceAs (Decidable (_ ∧ _))

/-- The event that is served is pending. -/
theorem view_pend {a : ConnAddr} {e : Env} (hruns : v.runs cfg l = some (a, true, e)) (hw : v.Wired)
    (ha : v.Live a) (hside : (v.conns a).side = .front) : (v.view (v.frontOf a)).pend = true := by
  obtain ⟨-, -, hself, -⟩ := hw.frontOf ha
  rw [hself hside]
  exact runs_pend hruns

/-- **A handler keeps the books of its session.** -/
theorem books_handler {w : View} {o : Holder → Option ℕ} {isIn : Bool} {e : Env} {side : Side}
    (hb : Base w.pend w.s) (hf : NoFile w.pend w.s) (hp : w.s.g.pool.Ok) (ho : Spare o w.s.g)
    (hpend : side = .front → isIn = true → w.pend = true)
    (hgood : Reaches cfg w (eventOf isIn e side)) :
    Books o w.s (handler cfg e w.s isIn side).2 := by
  obtain ⟨p, s⟩ := w
  have hsettled : ∀ {x : Except Fault (Rc × Session)},
      (∀ rc s', x = .ok (rc, s') → Books o s s') → Books o s (settle s x).2 := by
    intro x hx
    rcases settle_cases s x with h | ⟨rc, h⟩
    · rw [h]
      exact .refl o s
    · exact hx rc _ h
  cases side <;> cases isIn
  · exact hsettled fun rc s' h => books_response hb h
  · obtain rfl : p = true := hpend rfl rfl
    exact books_handleRequest hb hf hp ho hgood
  · exact hsettled fun rc s' h => books_pass (handlePass_move hb.rb h)
  · exact hsettled fun rc s' h => books_upstream (handleUpstream_move h)

theorem finish_fds (v : Server) (c : Clock) (a : ConnAddr) (err : Except Fault Rc) :
    (v.finish cfg c a err).g.fds = v.g.fds := by
  cases err with
  | error f => rfl
  | ok rc => cases rc <;> rfl

theorem Balanced.handle {a : ConnAddr} {isIn : Bool} {e : Env} (h : v.Balanced) (hs : v.Sound)
    (hf : ∀ a, v.Front a → NoFile (v.view a).pend (v.view a).s)
    (hgood : Meets cfg (Reaches cfg) v l) (hruns : v.runs cfg l = some (a, isIn, e)) (c : Clock) :
    (v.handle cfg isIn c e a).Balanced := by
  have hh := hs.handled hruns
  obtain ⟨ha, -⟩ := hs.runs hruns
  obtain ⟨hff, hfr, -, -⟩ := hs.wired.frontOf ha
  have hview : v.session (v.conns a).r = (v.view (v.frontOf a)).s := by
    show _ = v.session (v.conns (v.frontOf a)).r
    rw [hfr]
  have hbooks : Books v.holds (v.view (v.frontOf a)).s (v.left cfg a isIn e) := by
    unfold left
    rw [hview]
    refine books_handler (hs.base _ hff) (hf _ hff) hs.wired.pool (spare_holds v) (fun hside hin => ?_)
      (hgood _ (event_runs hruns))
    subst hin
    exact view_pend hruns hs.wired ha hside
  exact (h.store hh hbooks).same (handle_same c) (finish_fds _ c a _)

theorem Balanced.step (h : v.Balanced) (hs : v.Sound)
    (hf : ∀ a, v.Front a → NoFile (v.view a).pend (v.view a).s) (hgood : Tidies cfg v l)
    (hstep : v.step cfg l = some v') : v'.Balanced := by
  obtain ⟨hmeets, hclean⟩ := hgood
  cases (step_cases hstep).2 with
  | poll => exact h.same ⟨rfl, rfl, rfl, rfl, rfl⟩ rfl
  | accept o => exact openConnection_balanced hs.wired o h
  | drop => exact h.same ⟨rfl, rfl, rfl, rfl, rfl⟩ rfl
  | skip => exact h.same ⟨rfl, rfl, rfl, rfl, rfl⟩ rfl
  | handle items hruns => exact (h.handle hs hf hmeets hruns _).same ⟨rfl, rfl, rfl, rfl, rfl⟩ rfl
  | sweep now =>
      unfold sweepRound
      dsimp only
      split_ifs with hdue hlive
      · exact (h.settled hs.wired hlive (hclean hdue).2).same ⟨rfl, rfl, rfl, rfl, rfl⟩ rfl
      · exact h.same ⟨rfl, rfl, rfl, rfl, rfl⟩ rfl
      · exact h.same ⟨rfl, rfl, rfl, rfl, rfl⟩ rfl

theorem Init.balanced (h : v.Init) : v.Balanced := by
  have hnone : v.holds = fun _ => none := by
    funext i
    cases i with
    | conn a => exact holds_closed (h.closed a)
    | file q => exact if_neg (h.unrequested q)
  unfold Balanced
  rw [h.fds, hnone]
  exact .nil

theorem Reached.noFile (h : Reached cfg (Tidies cfg) v) :
    ∀ a, v.Front a → NoFile (v.view a).pend (v.view a).s :=
  Reached.sessions (invariant_noFile cfg)
    (fun w hw _ _ => by
      obtain ⟨r₀, c, hr⟩ := hw.request
      rw [hr]
      rfl)
    (Reach.mono (fun _ _ _ _ _ => trivial) h)

/-- **What is open is held.** -/
theorem Reached.balanced (h : Reached cfg (Tidies cfg) v) : v.Balanced :=
  h.invariant_of (fun _ hv => And.intro (Reached.sound hv) (Reached.noFile hv)) Balanced (fun _ => Init.balanced)
    fun _ _ _ hj hb hgood hstep => hb.step hj.1 hj.2 hgood hstep

/-! ### Nothing that is closed is reached -/

theorem handleRequest_late_open {s : Session} {e : Env} (hb : Base true s) (hl : s.Late) :
    (handleRequest cfg e s).1 ≠ .error .useAfterFree := by
  obtain ⟨rc, d, hrecv, -, -⟩ := Buffer.recv_spec e.recvs s.r.rb
  unfold handleRequest
  rw [hrecv]
  dsimp only
  split_ifs
  · simp
  have hsafe : Safely (fun f => f = .useAfterFree) (fun _ => True) (requestLoop cfg e 3 (s.receive d)) :=
    requestLoop_late_safely hl.2 (hb.late_pending hl) (by decide) trivial
  intro hf
  have hbad := hsafe.error _ hf
  simp at hbad

/-- No handler reaches a connection that is closed. -/
theorem handler_open {w : View} {isIn : Bool} {e : Env} {side : Side} (hb : Base w.pend w.s)
    (hpend : side = .front → isIn = true → w.pend = true) :
    (handler cfg e w.s isIn side).1 ≠ .error .useAfterFree := by
  obtain ⟨p, s⟩ := w
  have hraises : ∀ {l : List Fault} {x : Except Fault Rc}, Raises l x → Fault.useAfterFree ∉ l →
      x ≠ .error .useAfterFree := fun hr hl hx => hl (hr _ hx)
  cases side <;> cases isIn
  · exact hraises (raises_settle raises_handleResponse) (by decide)
  · obtain rfl : p = true := hpend rfl rfl
    by_cases hl : s.Late
    · exact handleRequest_late_open hb hl
    · exact hraises (raises_handleRequest hb fun _ => hl) (by decide)
  · exact hraises (raises_settle raises_handlePass) (by decide)
  · exact hraises (raises_settle raises_handleUpstream) (by decide)

theorem step_open (hs : v.Sound) (hclean : v.SweepsClean cfg l) (hstep : v.step cfg l = some v') :
    v'.dead ≠ some .useAfterFree := by
  intro hdead
  rcases hs.step_dead hstep hdead with hf | ⟨-, now, rfl, hdue, hnot⟩ | ⟨a, isIn, e, -, hff, hpend, hf⟩
  · cases hf
  · exact hnot (hclean hdue).1
  · exact handler_open (hs.base _ hff) hpend hf

theorem Reached.open_ (h : Reached cfg (Tidies cfg) v) : v.dead ≠ some .useAfterFree :=
  h.invariant_of (fun _ => Reached.sound) (fun v => v.dead ≠ some .useAfterFree)
    (fun v hv => by rw [hv.dead]; simp) fun _ _ _ hs _ hgood hstep => step_open hs hgood.2 hstep

end run

/-- Every descriptor that is open is held once, nothing was closed twice, and the worker has not
reached a connection that is closed. -/
structure Accounted (v : Server) : Prop where
  exact : Ledger.Exact v.g.fds v.holds
  once : Ledger.ClosedOnce v.g.fds
  root : v.dead ≠ some .useAfterFree

end Server

/-- **The descriptors of a worker are accounted for.**  They are, in every run whose steps reach the
upstreams they open and close no connection over an open file, when the kernel answers no
descriptor that is open. -/
theorem descriptors_accounted {cfg : Config} {v : Server}
    (h : Server.Reached cfg (Server.Tidies cfg) v) (hk : Fresh v.g.fds) : v.Accounted :=
  have hb := Server.Reached.balanced h
  ⟨hb.exact hk, hb.closedOnce hk, Server.Reached.open_ h⟩

/-- A proxied request times out; the next client is served from a directory. -/
def descriptorsRun : List Label :=
  Server.opened ++
  Server.single 0 0 true { idleEnv with recvs := [.got (bytes "GET /p HTTP/1.1\r\n\r\n")] } ++
  Server.round 100 [] [.sweep 100] ++
  Server.round 100 [.listener] [.accept ⟨5, true, 100⟩, .accepted] ++
  Server.single 100 0 true
    { idleEnv with
      recvs := [.got (bytes "GET / HTTP/1.1\r\n\r\n")]
      resource := fun _ => .directory 8 (some (9, 3)) }

/-- A location that is proxied, and one that is not. -/
def bothConfig : Config := serverConfig 60 [⟨true, bytes "/p"⟩, ⟨false, bytes "/"⟩]

theorem descriptors_accounted_run :
    ∃ v, exec (Server.step bothConfig) Server.boot descriptorsRun = some v ∧
      Ledger.held v.g.fds = [9, 5] ∧ v.Accounted := by
  have hrun : (exec (Server.step bothConfig) Server.boot descriptorsRun).any
      (fun v => decide (Ledger.held v.g.fds = [9, 5] ∧ Fresh v.g.fds)) := by
    decide +kernel
  obtain ⟨v, hv, hend⟩ := exists_of_any hrun
  obtain ⟨hheld, hfresh⟩ := of_decide_eq_true hend
  have hreach := Reach.exec (.start Server.boot_init)
    (show Transition.Along _ (Server.Tidies bothConfig) _ descriptorsRun by decide +kernel) hv
  exact ⟨v, hv, hheld, descriptors_accounted hreach hfresh⟩

/-- A socket whose `connect` fails stays open, and nobody has it. -/
theorem connect_leaks :
    ¬ ∀ (cfg : Config) (v : Server), Server.Reached cfg (fun _ _ => True) v → Fresh v.g.fds →
      v.Accounted := by
  intro hall
  let run := Server.opened ++
    Server.single 0 0 true
      { idleEnv with
        recvs := [.got (bytes "GET /p HTTP/1.1\r\n\r\n")]
        upstream := ⟨7, true, false, true, 0⟩ }
  have hrun : (exec (Server.step bothConfig) Server.boot run).any
      (fun v => decide (Fresh v.g.fds ∧ Ledger.held v.g.fds = [7, 5] ∧
        (∀ a < v.g.pool.next, v.holds (.conn a) ≠ some 7) ∧
        ∀ q < v.reqPool.next, v.holds (.file q) ≠ some 7)) := by
    decide +kernel
  obtain ⟨v, hv, hend⟩ := exists_of_any hrun
  obtain ⟨hfresh, hheld, hconn, hfile⟩ := of_decide_eq_true hend
  have hacc := hall _ v (Reach.exec (.start Server.boot_init) (along_true _ _) hv) hfresh
  obtain ⟨i, hi⟩ := (hacc.exact.mem 7).mp (by rw [hheld]; simp)
  cases i with
  | conn a => exact hconn a (v.holds_conn_lt hi) hi
  | file q => exact hfile q (v.holds_file_lt hi) hi

end SyServer
