import SyServer.Alive
import SyServer.Unmixed

/-! # Bytes on their way to the client

Between the places that fill `sb` (`sy_response_build`, `sy_response_build_err`, and
`sy_handle_upstream`) and the socket of the client stands one buffer, which is sent piece by piece,
and which `sy_request_clear` empties between two requests.  The bytes put into `sb` are those sent to
the client, in order, and those that are in `sb`; and where a connection is reset nothing is left in
`sb`, though nothing there looks at it.

For the last point it matters when `out_handler` becomes `sy_send_response_file`: `sb` is empty then,
and on a connection that will be kept no handler that fills `sb` runs any more. -/

namespace SyServer

open Transition (Reach exec along_true exists_of_any)

/-! ### What the log says of the bytes sent -/

/-- The bytes of `sb` that were sent to the client. -/
def sentOut : List Action → List UInt8
  | [] => []
  | .delivered (.buffer d) :: l => sentOut l ++ d
  | _ :: l => sentOut l

/-- At every reset, all that was put into `sb` had been sent. -/
def Flushed : List Action → Prop
  | [] => True
  | .cleared _ :: l => sentOut l = placed l ∧ Flushed l
  | _ :: l => Flushed l

section log

variable {l : List Action}

/-- What was placed and sent for the current request stands behind that of the others. -/
theorem Flushed.split (h : Flushed l) :
    ∃ d, placed l = d ++ placed (current l) ∧ sentOut l = d ++ sentOut (current l) := by
  induction l with
  | nil => exact ⟨[], rfl, rfl⟩
  | cons a l ih =>
      cases a with
      | cleared b => exact ⟨placed l, (List.append_nil _).symm, h.1.trans (List.append_nil _).symm⟩
      | delivered o =>
          obtain ⟨d, h1, h2⟩ := ih h
          cases o with
          | buffer d' =>
              refine ⟨d, h1, ?_⟩
              show sentOut l ++ d' = d ++ (sentOut (current l) ++ d')
              rw [h2, List.append_assoc]
          | file n => exact ⟨d, h1, h2⟩
      | relayed d' | built d' | page _ d' =>
          obtain ⟨d, h1, h2⟩ := ih h
          refine ⟨d, ?_, h2⟩
          show placed l ++ d' = d ++ (placed (current l) ++ d')
          rw [h1, List.append_assoc]
      | _ => exact ih h

end log

theorem Grows.pending {b b' : Buffer} (h : Grows b b') (hb : b.begin ≤ b.end_) :
    b'.pending = b.pending ++ b'.slice b.end_ b'.end_ := by
  unfold Buffer.pending
  rw [h.begin, ← Buffer.slice_append b' hb h.le,
    (Buffer.slice_congr fun k _ hk => h.mem k hk : b'.slice b.begin b.end_ = b.slice b.begin b.end_)]

/-! ### The invariant -/

/-- Nothing is lost on the way to the client.  `answered` and `handed` say when the file can be sent
behind `sb` on a connection that is kept: the request has been received and waits for its response, so
that no handler fills `sb` again. -/
structure Downstream (s : Session) : Prop where
  stream : sentOut s.log ++ s.r.sb.pending = placed s.log
  flushed : Flushed s.log
  fresh : s.r.inHandler = .requestLine → s.r.bodyDone = false →
    s.r.resourceFd = none ∧ s.r.outHandler = .buffer
  alone : s.r.resourceFd ≠ none → s.r.uc = none
  answered : s.r.keepAlive = true → s.r.resourceFd ≠ none → s.c.evOut = true → s.Late
  handed : s.r.keepAlive = true → s.r.outHandler = .file →
    s.r.sb.pending = [] ∧ s.r.uc = none ∧ s.Late
  done : s.r.responseDone = true → s.r.keepAlive = true → s.r.sb.pending = []

section moves

variable {cfg : Config} {s s' : Session}

/-- An error page: the connection will not be kept. -/
theorem downstream_errored {status : ℕ} {b : Buffer} (hb : Grows s.r.sb b)
    (hsb : s.r.sb.begin ≤ s.r.sb.end_) (hstream : sentOut s.log ++ s.r.sb.pending = placed s.log)
    (hflushed : Flushed s.log) (halone : s.r.resourceFd ≠ none → s.r.uc = none) :
    Downstream (s.errored status b) where
  stream := by
    show sentOut s.log ++ b.pending = placed s.log ++ b.slice s.r.sb.end_ b.end_
    rw [hb.pending hsb, ← hstream, List.append_assoc]
  flushed := hflushed
  fresh _ hd := by cases hd
  alone := halone
  answered hk := by cases hk
  handed hk := by cases hk
  done _ hk := by cases hk

/-- A location is looked for behind the request line. -/
theorem downstream_uri (hb : Base false s) (hin : s.r.inHandler = .headers)
    (hstream : sentOut s.log ++ s.r.sb.pending = placed s.log) (hflushed : Flushed s.log)
    (hfd : s.r.resourceFd = none) (hout : s.r.outHandler = .buffer) (huc : s.r.uc = none)
    (hev : s.c.evOut = false) (hdone : s.r.responseDone = false) (hm : UriMove s s') :
    Downstream s' := by
  have hline : s.r.inHandler ≠ .requestLine := by rw [hin]; simp
  have hbuffer : s.r.outHandler ≠ .file := by rw [hout]; simp
  have hnone : s.r.resourceFd ≠ none → s.r.uc = none := fun _ => huc
  cases hm with
  | notFound host port hg => exact downstream_errored hg hb.sb hstream hflushed hnone
  | refused host port hg hg' => exact downstream_errored hg' hb.sb hstream hflushed fun _ => rfl
  | missing host port i status hg => exact downstream_errored hg hb.sb hstream hflushed hnone
  | proxied host port fd hg =>
      exact {
        stream := hstream
        flushed := hflushed
        fresh := fun h => absurd h hline
        alone := fun h => absurd hfd h
        answered := fun _ h => absurd hfd h
        handed := fun _ h => absurd h hbuffer
        done := fun h => absurd (hdone.symm.trans h) (by simp) }
  | found host port i uri fd size =>
      exact {
        stream := hstream
        flushed := hflushed
        fresh := fun h => absurd h hline
        alone := fun _ => huc
        answered := fun _ _ h => absurd (hev.symm.trans h) (by simp)
        handed := fun _ h => absurd h hbuffer
        done := fun h => absurd (hdone.symm.trans h) (by simp) }

theorem downstream_client (hb : Base false s) (h : Downstream s) (hm : ClientMove cfg s s') :
    Downstream s' := by
  cases hm with
  | called hl => exact { h with }
  | lineMore hopen hin hp =>
      obtain ⟨_, _, _, _, _, _, rfl, -⟩ := parseRequestLine_frame hp
      exact { h with }
  | lineError status hopen hin hp hrc hg =>
      obtain ⟨_, _, _, _, _, _, rfl, -⟩ := parseRequestLine_frame hp
      exact downstream_errored hg hb.sb h.stream h.flushed h.alone
  | @lineOk r s' k hopen hin hp huri =>
      have hst := (parseRequestLine_done hp).1
      have hsame : Base false { s with r := { r with keepAlive := k, inHandler := .headers } } ∧
          r.sb = s.r.sb ∧ r.resourceFd = s.r.resourceFd ∧ r.outHandler = s.r.outHandler ∧
          r.uc = s.r.uc ∧ r.responseDone = s.r.responseDone := by
        obtain ⟨_, _, _, _, _, _, rfl, hk⟩ := parseRequestLine_frame hp
        refine ⟨.of_inside (by simp) (hk hb.rb) hb.sb ?_ fun hd => ?_, rfl, rfl, rfl, rfl, rfl⟩
        · exact (congrArg PState.headerLine hst).trans rfl
        · exact absurd ((hb.fresh hin hopen).2.2.2.symm.trans hd) (by simp)
      obtain ⟨hb', hsb, hfd, hout, huc, hdone⟩ := hsame
      obtain ⟨hfd₀, hout₀⟩ := h.fresh hin hopen
      obtain ⟨-, huc₀, hev, hdone₀⟩ := hb.fresh hin hopen
      refine downstream_uri hb' rfl ?_ h.flushed (hfd.trans hfd₀) (hout.trans hout₀) (huc.trans huc₀)
        hev (hdone.trans hdone₀) huri
      rw [← h.stream, ← hsb]
  | headersMore hin hp =>
      obtain ⟨_, _, _, _, rfl, -, -⟩ := parseHeaderLine_frame hp
      exact { h with }
  | header hin hp =>
      obtain ⟨_, _, _, _, rfl, -, -⟩ := parseHeaderLine_frame hp
      exact { h with }
  | headerSet hs k te n hin hp hget hk =>
      obtain ⟨_, _, _, _, rfl, -, -⟩ := parseHeaderLine_frame hp
      exact { h with
        answered := fun h1 => h.answered (hk h1)
        handed := fun h1 => h.handed (hk h1)
        done := fun h1 h2 => h.done h1 (hk h2) }
  | headerError hs status hin hp hget hg =>
      obtain ⟨_, _, _, _, rfl, -, -⟩ := parseHeaderLine_frame hp
      exact downstream_errored hg hb.sb h.stream h.flushed h.alone
  | headersEnd hin hp =>
      obtain ⟨_, _, _, _, rfl, -, -⟩ := parseHeaderLine_frame hp
      have hnot : ¬ s.Late := fun hl => absurd (hin.symm.trans hl.2) (by simp)
      exact { h with
        fresh := fun h1 => by cases h1
        answered := fun h1 h2 h3 => absurd (h.answered h1 h2 h3) hnot
        handed := fun h1 h2 => absurd (h.handed h1 h2).2.2 hnot }
  | bodyMore n hin hlen huc => exact { h with }
  | bodyRelayed n hin huc =>
      exact { h with
        fresh := fun _ h2 => by cases h2
        answered := fun _ _ _ => ⟨rfl, rfl⟩
        handed := fun h1 h2 => absurd (h.handed h1 h2).2.1 huc }
  | @bodyLocal b n fd hin huc hg hcall fds hfile =>
      have hnot : ¬ s.Late := fun hl => absurd (hin.symm.trans hl.2) (by simp)
      exact {
        stream := by
          show sentOut s.log ++ b.pending = placed s.log ++ b.slice s.r.sb.end_ b.end_
          rw [hg.pending hb.sb, ← h.stream, List.append_assoc]
        flushed := h.flushed
        fresh := fun _ h2 => by cases h2
        alone := fun _ => huc
        answered := fun _ _ _ => ⟨rfl, rfl⟩
        handed := fun h1 h2 => absurd (h.handed h1 h2).2.2 hnot
        done := fun h1 h2 => absurd ((hb.done h1).symm.trans h2) (by simp) }

theorem downstream_upstream {e : Env} {p : Bool} (hb : Base p s) (h : Downstream s)
    (huc : s.r.uc ≠ none) (hm : UpstreamMove e s s') : Downstream s' := by
  have hput : ∀ (d : List UInt8) (c : Connection), Downstream { s with
      r := { s.r with sb := s.r.sb.put d }, c := c, log := .relayed d :: s.log } := by
    intro d c
    refine {
      stream := ?_
      flushed := h.flushed
      fresh := h.fresh
      alone := h.alone
      answered := fun _ hfd => absurd (h.alone hfd) huc
      handed := fun hk hout => absurd (h.handed hk hout).2.1 huc
      done := fun hd hk => absurd ((hb.done hd).symm.trans hk) (by simp) }
    show sentOut s.log ++ (s.r.sb.put d).slice s.r.sb.begin (s.r.sb.end_ + d.length) = placed s.log ++ d
    rw [Buffer.slice_put _ _ hb.sb, ← h.stream, List.append_assoc]
    rfl
  cases hm with
  | more hrecv => exact hput _ _
  | eof hrecv => exact hput _ _
  | @failed d b hrecv hg =>
      have h' := hput d s.c
      exact downstream_errored hg (hb.sb.trans (Nat.le_add_right _ _)) h'.stream h'.flushed h'.alone

theorem downstream_pass {e : Env} {p : Bool} (hb : Base p s) (h : Downstream s)
    (hm : PassMove e s s') : Downstream s' := by
  cases hm with
  | done hsend => exact { h with }
  | part hn => exact { h with }
  | failed hn hsend hg => exact downstream_errored hg hb.sb h.stream h.flushed h.alone

/-! ### The response -/

/-- Bytes of `sb` are sent. -/
theorem Downstream.buffer (h : Downstream s) {d : List UInt8} {b : Buffer}
    (hd : d ++ b.pending = s.r.sb.pending) :
    Downstream ({ s with r := { s.r with sb := b } }.note (.delivered (.buffer d))) := by
  have hnil : s.r.sb.pending = [] → b.pending = [] := fun hs => by
    rw [hs] at hd
    exact (List.append_eq_nil_iff.mp hd).2
  exact { h with
    stream := by
      show (sentOut s.log ++ d) ++ b.pending = placed s.log
      rw [List.append_assoc, hd]
      exact h.stream
    handed := fun h1 h2 => ⟨hnil (h.handed h1 h2).1, (h.handed h1 h2).2⟩
    done := fun h1 h2 => hnil (h.done h1 h2) }

/-- All of `sb` is sent. -/
theorem Downstream.bufferSent (h : Downstream s) (hev : s.c.evOut = true)
    (hopen : s.r.inHandler = .requestLine → s.r.bodyDone ≠ false) (hnil : s.r.sb.pending = []) :
    Downstream (responseBufferSent s).2 := by
  unfold responseBufferSent
  split_ifs with huc hfd
  · exact h
  · have huc := not_not.mp huc
    exact { h with
      fresh := fun h1 h2 => absurd h2 (hopen h1)
      handed := fun h1 _ => ⟨hnil, huc, h.answered h1 hfd hev⟩ }
  · exact { h with
      answered := fun _ h2 => absurd h2 hfd
      done := fun _ _ => hnil }

theorem sendResponseBuffer_downstream {e : Env} (hb : s.r.sb.begin ≤ s.r.sb.end_) (h : Downstream s)
    (hev : s.c.evOut = true) (hopen : s.r.inHandler = .requestLine → s.r.bodyDone ≠ false) :
    Downstream (sendResponseBuffer e s).2 := by
  obtain ⟨rc, n, hn, hsend, hrc⟩ := Buffer.send_spec e.sends s.r.sb hb
  unfold sendResponseBuffer
  rw [hsend]
  dsimp only
  rcases hrc with ⟨rfl, hend⟩ | ⟨hrc, hlt⟩
  · rw [if_pos rfl, if_pos rfl, hend]
    refine (h.buffer ?_).bufferSent hev hopen ?_
    · simp [Buffer.pending, Buffer.clear]
    · simp [Session.note, Buffer.pending, Buffer.clear]
  · have hne : rc ≠ .ok := by rcases hrc with rfl | rfl <;> simp
    rw [if_neg hne, if_neg hne]
    have hsplit : s.r.sb.slice s.r.sb.begin (s.r.sb.begin + n) ++
        ({ s.r.sb with begin := s.r.sb.begin + n } : Buffer).pending = s.r.sb.pending :=
      Buffer.slice_append _ (Nat.le_add_right _ _) hn
    split_ifs <;> exact h.buffer hsplit

/-- A call that answers `OK` with the response still open waits for the socket on. -/
theorem sendResponseBuffer_evOut {e : Env} (hrc : (sendResponseBuffer e s).1 = .ok)
    (hd : (sendResponseBuffer e s).2.r.responseDone = false) :
    (sendResponseBuffer e s).2.c.evOut = s.c.evOut := by
  unfold sendResponseBuffer at hrc hd ⊢
  dsimp only at hrc hd ⊢
  by_cases hok : (s.r.sb.send e.sends).1 = .ok
  · rw [if_pos hok] at hd ⊢
    unfold responseBufferSent at hd ⊢
    split_ifs at hd ⊢ <;> rfl
  · rw [if_neg hok] at hrc
    split_ifs at hrc

theorem sendResponseFile_downstream {e : Env} {rc : Rc} (h : Downstream s)
    (hout : s.r.outHandler = .file) (hrun : sendResponseFile e s = .ok (rc, s')) : Downstream s' := by
  unfold sendResponseFile at hrun
  dsimp only at hrun
  split_ifs at hrun with huc hok
  · cases hrun
    exact { h with
      fresh := fun h1 h2 => ⟨rfl, (h.fresh h1 h2).2⟩
      alone := fun h1 => absurd rfl h1
      answered := fun _ h2 => absurd rfl h2
      done := fun _ h2 => (h.handed h2 hout).1 }
  · cases hrun
    exact { h with }

/-- The loop of `sy_handle_response`. -/
theorem responseLoop_downstream {e : Env} {n : ℕ} {rc : Rc} (hb : s.r.sb.begin ≤ s.r.sb.end_)
    (h : Downstream s) (hev : s.c.evOut = true)
    (hopen : s.r.inHandler = .requestLine → s.r.bodyDone ≠ false)
    (hrun : responseLoop e n s = .ok (rc, s')) : Downstream s' := by
  induction n generalizing s with
  | zero => cases hrun; exact h
  | succ n ih =>
      obtain ⟨⟨err, s₁⟩, h1, h2⟩ := bind_ok hrun
      have hs := OutHandler.run_sent hb h1
      have hs₁ : Downstream s₁ ∧ (err = .ok → s₁.r.responseDone = false → s₁.c.evOut = true) := by
        cases hout : s.r.outHandler with
        | buffer =>
            rw [hout] at h1
            have he : sendResponseBuffer e s = (err, s₁) := Except.ok.inj h1
            have hd := sendResponseBuffer_downstream (e := e) hb h hev hopen
            have hk := sendResponseBuffer_evOut (e := e) (s := s)
            rw [he] at hd hk
            exact ⟨hd, fun h3 h4 => (hk h3 h4).trans hev⟩
        | file =>
            rw [hout] at h1
            refine ⟨sendResponseFile_downstream h hout h1, fun h3 h4 => ?_⟩
            have h1 : sendResponseFile e s = .ok (err, s₁) := h1
            unfold sendResponseFile at h1
            dsimp only at h1
            split_ifs at h1 with huc hok
            · cases h1; exact hev
            · cases h1; exact hev
      dsimp only at h2
      split_ifs at h2 with hgo
      · obtain ⟨sb, oh, done, fd, out, ds, fds, rfl, hb₁, -⟩ := hs
        exact ih hb₁ hs₁.1 (hs₁.2 hgo.1 hgo.2) hopen h2
      · cases h2
        exact hs₁.1

/-- A connection that is kept is reset: nothing is left in `sb`. -/
theorem downstream_clear (h : Downstream s) (hd : s.r.responseDone = true)
    (hk : s.r.keepAlive = true) : Downstream s.clear := by
  have hsent : sentOut s.log = placed s.log := by
    rw [← h.stream, h.done hd hk, List.append_nil]
  exact {
    stream := by
      show sentOut s.log ++ [] = placed s.log
      rw [List.append_nil]
      exact hsent
    flushed := ⟨hsent, h.flushed⟩
    fresh := fun _ _ => ⟨rfl, rfl⟩
    alone := fun h1 => absurd rfl h1
    answered := fun h1 => by cases h1
    handed := fun h1 => by cases h1
    done := fun h1 => by cases h1 }

theorem downstream_response {e : Env} {p : Bool} {rc : Rc} (hb : Base p s) (h : Downstream s)
    (hev : s.c.evOut = true) (hrun : handleResponse e s = .ok (rc, s')) : Downstream s' := by
  have hopen : s.r.inHandler = .requestLine → s.r.bodyDone ≠ false := fun h1 h2 =>
    absurd (hev.symm.trans (hb.fresh h1 h2).2.2.1) (by simp)
  obtain ⟨⟨err, s₁⟩, h1, h2⟩ := bind_ok hrun
  have hs := responseLoop_downstream hb.sb h hev hopen h1
  dsimp only at h2
  split_ifs at h2 with hd hk
  · cases h2; exact downstream_clear hs hd hk
  · cases h2; exact hs
  · cases h2; exact hs

theorem kept_downstream : Kept cfg (fun _ _ => True) fun p s => Base p s ∧ Downstream s where
  share _ _ g h := ⟨base_share h.1 g, { h.2 with }⟩
  poll _ _ _ hb hin h := ⟨base_poll hb hin, h.2⟩
  request s e hb h _ := kept_request hb (fun d => { h.2 with })
    (fun _ _ => downstream_client) fun t t' ht hm => by
      cases hm with
      | aborted => exact { ht with }
      | empty => exact { ht with }
  response p s s' e rc hb h _ hout hrun :=
    ⟨base_response hb hout (handleResponse_move hb.sb hrun), downstream_response hb h.2 hout hrun⟩
  upstream p s s' e h huc hm := ⟨base_upstream h.1 huc hm, downstream_upstream h.1 h.2 huc hm⟩
  pass p s s' e h huc hm := ⟨base_pass h.1 huc hm, downstream_pass h.1 h.2 hm⟩
  close s h _ := ⟨base_close h.1, { h.2 with alone := fun _ => rfl, handed := fun h1 h2 =>
    ⟨(h.2.handed h1 h2).1, rfl, (h.2.handed h1 h2).2.2⟩ }⟩

theorem downstream_init {v : View} (h : v.Init) : Downstream v.s := by
  obtain ⟨r₀, c, hr⟩ := h.request
  refine {
    stream := by rw [h.log, hr]; rfl
    flushed := by rw [h.log]; trivial
    fresh := fun _ _ => by rw [hr]; exact ⟨rfl, rfl⟩
    alone := fun h1 => absurd (by rw [hr]; rfl) h1
    answered := fun h1 => by rw [hr] at h1; cases h1
    handed := fun h1 => by rw [hr] at h1; cases h1
    done := fun h1 => by rw [hr] at h1; cases h1 }

end moves

/-! ### Runs of the worker -/

section runs

variable {cfg : Config} {v : Server} {a : ConnAddr}

theorem Server.Reached.downstream {good : Server → Label → Prop} (h : Server.Reached cfg good v)
    (ha : v.Front a) : Base (v.view a).pend (v.view a).s ∧ Downstream (v.view a).s :=
  Server.Reached.kept kept_downstream (fun _ hw => ⟨base_init hw, downstream_init hw⟩)
    (h.mono fun _ _ _ _ _ => trivial) a ha

/-- What is sent for the current request, and what is in `sb`. -/
theorem Downstream.current {s : Session} (h : Downstream s) :
    sentOut (current s.log) ++ s.r.sb.pending = placed (current s.log) := by
  obtain ⟨d, hplaced, hsent⟩ := h.flushed.split
  have hstream := h.stream
  rw [hplaced, hsent, List.append_assoc] at hstream
  exact List.append_cancel_left hstream

/-- **No byte is lost on the way to the client.**  What was put into `sb` is, in order, what was sent
and what is still there, for the connection as a whole and for the current request; where the
connection was reset between two requests, everything had been sent. -/
theorem client_stream {good : Server → Label → Prop} (h : Server.Reached cfg good v)
    (ha : v.Front a) :
    sentOut (v.log (v.conns a).r) ++ (v.reqs (v.conns a).r).sb.pending = placed (v.log (v.conns a).r) ∧
      sentOut (current (v.log (v.conns a).r)) ++ (v.reqs (v.conns a).r).sb.pending =
        placed (current (v.log (v.conns a).r)) ∧
      Flushed (v.log (v.conns a).r) := by
  have hd := (Server.Reached.downstream h ha).2
  exact ⟨hd.stream, hd.current, hd.flushed⟩

/-- Two requests for a file; the second response is sent in part. -/
def twoRequestsRun : List Label :=
  Server.opened ++
  Server.single 0 0 true
    { idleEnv with
      recvs := [.got (bytes "GET /i.html HTTP/1.1\r\n\r\n")], resource := fun _ => .file 9 0 } ++
  Server.single 0 0 false { idleEnv with sends := [.sent 20] } ++
  Server.single 0 0 false { idleEnv with sends := [.sent 2048], files := [.sent 0] } ++
  Server.single 0 0 true { idleEnv with recvs := [.got (bytes "GET /nothing HTTP/1.1\r\n\r\n")] } ++
  Server.single 0 0 false { idleEnv with sends := [.sent 9] }

theorem client_stream_two :
    ∃ v, exec (Server.step (serverConfig 60 [⟨false, bytes "/"⟩])) Server.boot twoRequestsRun = some v ∧
      sentOut (current (v.log (v.conns 0).r)) = bytes "HTTP/1.1 " ∧
      sentOut (v.log (v.conns 0).r) ++ (v.reqs (v.conns 0).r).sb.pending =
        placed (v.log (v.conns 0).r) ∧
      sentOut (current (v.log (v.conns 0).r)) ++ (v.reqs (v.conns 0).r).sb.pending =
        placed (current (v.log (v.conns 0).r)) ∧
      Flushed (v.log (v.conns 0).r) := by
  have hrun : (exec (Server.step (serverConfig 60 [⟨false, bytes "/"⟩])) Server.boot twoRequestsRun).any
      (fun v => decide (v.Front 0 ∧
        sentOut (current (v.log (v.conns 0).r)) = bytes "HTTP/1.1 ")) := by
    decide +kernel
  obtain ⟨v, hv, hend⟩ := exists_of_any hrun
  obtain ⟨hfront, hsent⟩ := of_decide_eq_true hend
  have hreach := Reach.exec (.start Server.boot_init) (along_true _ _) hv
  exact ⟨v, hv, hsent, client_stream hreach hfront⟩

/-- **A proxied response reaches the client as the upstream sent it**: without a call that mixes
responses, the client has been sent a first part of what the upstream sent, or of one error page, and
the rest is in `sb`. -/
theorem proxied_stream {timeout : ℤ} {locations : List Location}
    (h : Server.Reached (serverConfig timeout locations)
      (Server.Meets (serverConfig timeout locations) NoMixing) v)
    (ha : v.Front a) (hp : Proxied (v.log (v.conns a).r)) :
    sentOut (current (v.log (v.conns a).r)) ++ (v.reqs (v.conns a).r).sb.pending =
        fromUpstream (current (v.log (v.conns a).r)) ∨
      fromUpstream (current (v.log (v.conns a).r)) = [] ∧
        ∃ status d, pages (current (v.log (v.conns a).r)) = [(status, d)] ∧
          (status = 503 ∨ status = 400) ∧
          sentOut (current (v.log (v.conns a).r)) ++ (v.reqs (v.conns a).r).sb.pending = d := by
  have hstream := (Server.Reached.downstream h ha).2.current
  have hunmixed := (Server.Reached.sessions invariant_apart (fun _ => apart_init) h a ha).log.unmixed
  rcases (hunmixed hp).2 with ⟨-, hplaced⟩ | ⟨status, d, hpages, hstatus, hup, hplaced⟩
  · exact .inl (hstream.trans hplaced)
  · exact .inr ⟨hup, status, d, hpages, hstatus, hstream.trans hplaced⟩

/-- A request is forwarded, the upstream answers in two pieces, and a part of it is sent. -/
def relayedRun : List Label :=
  Server.opened ++
  Server.single 0 0 true { idleEnv with recvs := [.got (bytes "GET /p HTTP/1.1\r\n\r\n")] } ++
  Server.single 0 1 false { idleEnv with sends := [.sent 19] } ++
  Server.single 0 1 true { idleEnv with recvs := [.got (bytes "HTTP/1.1 ")] } ++
  Server.single 0 0 false { idleEnv with sends := [.sent 4] } ++
  Server.single 0 1 true { idleEnv with recvs := [.got (bytes "200 OK\r\n\r\n")] }

theorem proxied_stream_part :
    ∃ v, exec (Server.step (serverConfig 60 [⟨true, bytes "/p"⟩])) Server.boot relayedRun = some v ∧
      sentOut (current (v.log (v.conns 0).r)) = bytes "HTTP" ∧
      fromUpstream (current (v.log (v.conns 0).r)) = bytes "HTTP/1.1 200 OK\r\n\r\n" ∧
      (sentOut (current (v.log (v.conns 0).r)) ++ (v.reqs (v.conns 0).r).sb.pending =
          fromUpstream (current (v.log (v.conns 0).r)) ∨
        fromUpstream (current (v.log (v.conns 0).r)) = [] ∧
          ∃ status d, pages (current (v.log (v.conns 0).r)) = [(status, d)] ∧
            (status = 503 ∨ status = 400) ∧
            sentOut (current (v.log (v.conns 0).r)) ++ (v.reqs (v.conns 0).r).sb.pending = d) := by
  have hrun : (exec (Server.step (serverConfig 60 [⟨true, bytes "/p"⟩])) Server.boot relayedRun).any
      (fun v => decide (v.Front 0 ∧ Proxied (v.log (v.conns 0).r) ∧
        sentOut (current (v.log (v.conns 0).r)) = bytes "HTTP" ∧
        fromUpstream (current (v.log (v.conns 0).r)) = bytes "HTTP/1.1 200 OK\r\n\r\n")) := by
    decide +kernel
  obtain ⟨v, hv, hend⟩ := exists_of_any hrun
  obtain ⟨hfront, hproxied, hsent, hup⟩ := of_decide_eq_true hend
  have hreach := Reach.exec (.start Server.boot_init)
    (show Transition.Along _ (Server.Meets (serverConfig 60 [⟨true, bytes "/p"⟩]) NoMixing) _
      relayedRun by decide +kernel) hv
  exact ⟨v, hv, hsent, hup, proxied_stream hreach hfront hproxied⟩

end runs

end SyServer
