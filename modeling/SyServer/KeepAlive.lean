import SyServer.Sessions

/-! # The reset of a kept connection

`sy_request_clear` carries `r->uc` over `sy_request_init` and closes no descriptor.  Both are
harmless: when `sy_handle_response` resets a request, the response is done, so the upstream is gone
(`Base.cleared`) and the resource is closed (`responseLoop_closed`).  What is left is a request as
`sy_open_connection` makes it. -/

namespace SyServer

open Transition (Reach exec along_true exists_of_any)

/-- The two requests differ at most in the bytes of the arrays of `rb` and `sb`. -/
def SameButLeftover (r r' : Request) : Prop :=
  ∃ m m', r' = { r with rb := { r.rb with mem := m }, sb := { r.sb with mem := m' } }

section loop

variable {e : Env} {s s' : Session} {rc : Rc}

/-- A handler that ends the response leaves no resource open. -/
theorem OutHandler.run_closed (hopen : s.r.responseDone = false)
    (h : s.r.outHandler.run e s = .ok (rc, s')) (hd : s'.r.responseDone = true) :
    s'.r.resourceFd = none := by
  cases hout : s.r.outHandler <;> rw [hout] at h
  case buffer =>
      have hbuffer : sendResponseBuffer e s = (rc, s') := Except.ok.inj h
      have hstill : ∀ t : Session, t.r.responseDone = false →
          (responseBufferSent t).2.r.responseDone = true →
            (responseBufferSent t).2.r.resourceFd = none := by
        intro t ht hdone
        unfold responseBufferSent at hdone ⊢
        split_ifs at hdone ⊢ with huc hfd
        · exact absurd (ht.symm.trans hdone) (by simp)
        · exact absurd (ht.symm.trans hdone) (by simp)
        · exact not_not.mp hfd
      unfold sendResponseBuffer at hbuffer
      dsimp only at hbuffer
      split_ifs at hbuffer
      · obtain ⟨rfl, rfl⟩ := Prod.mk.inj hbuffer
        exact hstill _ hopen hd
      · cases hbuffer
        exact absurd (hopen.symm.trans hd) (by simp)
      · cases hbuffer
        exact absurd (hopen.symm.trans hd) (by simp)
  case file =>
      unfold OutHandler.run sendResponseFile at h
      dsimp only at h
      split_ifs at h
      · cases h
        rfl
      · cases h
        exact absurd (hopen.symm.trans hd) (by simp)

theorem responseLoop_closed {n : ℕ} (hopen : s.r.responseDone = false)
    (h : responseLoop e n s = .ok (rc, s')) (hd : s'.r.responseDone = true) :
    s'.r.resourceFd = none := by
  induction n generalizing s with
  | zero =>
      cases h
      exact absurd (hopen.symm.trans hd) (by simp)
  | succ n ih =>
      obtain ⟨⟨err, s₁⟩, h1, h2⟩ := bind_ok h
      dsimp only at h2
      split_ifs at h2 with hgo
      · exact ih hgo.2 h2
      · cases h2
        exact OutHandler.run_closed hopen h1 hd

end loop

/-- **A kept connection is reset completely.**  Where the loop of `sy_handle_response` leaves a
response done on a kept connection, no resource is open any more, and the call leaves the request
as one that `sy_open_connection` has just made, and the connection waiting for `EVENTS_IN` only. -/
theorem reset_complete {cfg : Config} {good : Server → Label → Prop} {v : Server}
    (h : Server.Reached cfg good v) {a : ConnAddr} (ha : v.Front a)
    {e : Env} {err : Rc} {s : Session} (hloop : responseLoop e 2 (v.view a).s = .ok (err, s))
    (hdone : s.r.responseDone = true) (hkeep : s.r.keepAlive = true) :
    ∃ s', handleResponse e (v.view a).s = .ok (err, s') ∧ s.r.resourceFd = none ∧
      (∀ r₀ : Request, r₀.rb.addr = s.r.rb.addr → r₀.sb.addr = s.r.sb.addr →
        SameButLeftover (requestInit r₀ a) s'.r) ∧
      s'.c = { v.conns a with evIn := true, evOut := false } := by
  have hsound := h.sound
  have hb := hsound.base a ha
  have hsent := responseLoop_sent hb.sb hloop
  obtain ⟨huc, hopen⟩ := hb.cleared hsent hdone hkeep
  have hclosed := responseLoop_closed hopen hloop hdone
  refine ⟨s.clear, ?_, hclosed, fun r₀ hrb hsb => ?_, ?_⟩
  · unfold handleResponse
    rw [hloop]
    show (if s.r.responseDone then _ else _) = _
    rw [if_pos hdone]
    show (if s.r.keepAlive then _ else _) = _
    rw [if_pos hkeep]
    rfl
  · obtain ⟨sb, oh, done, fd, out, ds, fds, rfl, -⟩ := hsent
    have hc : (v.view a).s.r.c = a := (hsound.wired.front a ha).2
    refine ⟨(v.view a).s.r.rb.mem, sb.mem, ?_⟩
    show requestClear _ = _
    unfold requestClear requestInit
    dsimp only at hrb hsb ⊢
    unfold Buffer.clear
    rw [hrb, hsb, huc, hc]
  · obtain ⟨sb, oh, done, fd, out, ds, fds, rfl, -⟩ := hsent
    have hc : (v.view a).s.c = v.conns a := by
      show v.conns (v.reqs (v.conns a).r).c = v.conns a
      rw [(hsound.wired.front a ha).2]
    show enableIn (disableOut _) = _
    unfold enableIn disableOut
    rw [hc]

/-- A local request on a kept connection is received. -/
def staticRun : List Label :=
  Server.opened ++
  Server.single 0 0 true
    { idleEnv with
      recvs := [.got (bytes "GET /i.html HTTP/1.1\r\n\r\n")], resource := fun _ => .file 9 0 }

/-- The kernel takes the response and the file. -/
def takingEnv : Env := { idleEnv with sends := [.sent 2048], files := [.sent 0] }

/-- The round behind the batch ends the response with `r->keep_alive` set. -/
def staticKept (v : Server) : Bool :=
  match responseLoop takingEnv 2 (v.view 0).s with
  | .ok (.ok, s) => decide (s.r.responseDone = true ∧ s.r.keepAlive = true ∧
      s.r.rb.addr = 4096 ∧ s.r.sb.addr = 8192)
  | _ => false

theorem reset_complete_static :
    ∃ v, exec (Server.step (serverConfig 60 [⟨false, bytes "/"⟩])) Server.boot staticRun = some v ∧
      ∃ s', handleResponse takingEnv (v.view 0).s = .ok (.ok, s') ∧
        SameButLeftover (requestInit .zeroed 0) s'.r ∧
        s'.c = { v.conns 0 with evIn := true, evOut := false } := by
  have hrun : (exec (Server.step (serverConfig 60 [⟨false, bytes "/"⟩])) Server.boot staticRun).any
      (fun v => decide (v.Front 0) && staticKept v) := by
    decide +kernel
  obtain ⟨v, hv, hend⟩ := exists_of_any hrun
  obtain ⟨hfront, hrest⟩ := Bool.and_eq_true_iff.mp hend
  have hreach := Reach.exec (.start Server.boot_init) (along_true _ _) hv
  unfold staticKept at hrest
  split at hrest
  · rename_i s hloop
    obtain ⟨hdone, hkeep, hrb, hsb⟩ := of_decide_eq_true hrest
    obtain ⟨s', hcall, -, hsame, hc⟩ := reset_complete hreach (of_decide_eq_true hfront) hloop hdone hkeep
    exact ⟨v, hv, s', hcall, hsame _ hrb.symm hsb.symm, hc⟩
  · cases hrest

end SyServer
