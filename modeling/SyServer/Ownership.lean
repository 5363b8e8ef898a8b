import SyServer.Registered

/-! # Who owns a connection and a request

`Owned`: a front connection owns its request, a request owns its upstream connection, and nothing
that is handed out is without an owner.  Whatever `events[]` still holds, and what the sweep takes
from the root of the heap, is open.  So a connection and a request go back to their pools once, by
`sy_close_connection` on the front connection or on the upstream. -/

namespace SyServer

open Transition (Reach exec along_true exists_of_any)

namespace Server

/-- The links between the connections and the requests that are handed out. -/
structure Owned (v : Server) : Prop where
  front : ∀ c, v.Front c → v.reqPool.Live (v.conns c).r ∧ (v.reqs (v.conns c).r).c = c
  only : ∀ c c', v.Front c → v.Front c' → (v.conns c).r = (v.conns c').r → c = c'
  up : ∀ c u, v.Front c → (v.reqs (v.conns c).r).uc = some u →
    v.Live u ∧ (v.conns u).side = .back ∧ (v.conns u).r = (v.conns c).r
  back : ∀ u, v.Live u → (v.conns u).side = .back → (v.reqs (v.conns u).r).uc = some u ∧
    ∃ c, v.Front c ∧ (v.conns c).r = (v.conns u).r
  request : ∀ q, v.reqPool.Live q → ∃ c, v.Front c ∧ (v.conns c).r = q

/-- What was given back is on the free list once, and not in use. -/
structure ReturnedOnce (v : Server) : Prop where
  conns : v.g.pool.free.Nodup ∧ ∀ a ∈ v.g.pool.free, ¬ v.Live a
  reqs : v.reqPool.free.Nodup ∧ ∀ q ∈ v.reqPool.free, ¬ v.reqPool.Live q

/-- Every request that is handed out belongs to a front connection. -/
def Requested (v : Server) : Prop := ∀ q, v.reqPool.Live q → ∃ c, v.Front c ∧ (v.conns c).r = q

section requested

variable {cfg : Config} {v v' : Server} {a : ConnAddr} {l : Label}

theorem Requested.same (h : v.Requested) (hs : SameMemory v v') : v'.Requested := by
  intro q hq
  rw [hs.reqPool] at hq
  obtain ⟨c, hc, hr⟩ := h q hq
  exact ⟨c, (hs.front c).mpr hc, by rw [hs.conns]; exact hr⟩

theorem Requested.store {s : Session} (h : v.Requested) (hh : Handled v a s) :
    (v.store s).Requested := by
  intro q hq
  obtain ⟨c, hc, hr⟩ := h q hq
  refine ⟨c, (store_front hh c).mpr hc, ?_⟩
  by_cases hca : c = a
  · subst hca
    rw [store_conns_self hh, hh.frame.cr, hh.session_c]
    exact hr
  · rw [(store_aside hh hc hca).conns]
    exact hr

theorem closeBack_reqPool (h : v.closeBack a = .ok v') : v'.reqPool = v.reqPool := by
  obtain ⟨g, -, hv⟩ := bind_ok h
  cases hv
  rfl

theorem closeFront_reqPool (h : v.closeFront a = .ok v') :
    v'.reqPool = v.reqPool.release (v.conns a).r := by
  cases closeFront_move h with
  | alone => rfl
  | upstream hun huc hclose =>
      show Pool.release _ _ = _
      rw [closeBack_reqPool hclose]
      rfl

theorem Requested.close (h : v.Requested) (hw : v.Wired) (ha : v.Live a)
    (hclose : v.closeConnection a = .ok v') : v'.Requested := by
  have hc := closeConnection_closed hw ha hclose
  -- an owner other than the closed connection stays open
  have hkeep : ∀ c q, v.Front c → (v.conns c).r = q → c ≠ a → ∃ c, v'.Front c ∧ (v'.conns c).r = q := by
    intro c q hf hr hca
    refine ⟨c, (hc.front c).mpr ⟨hf, ?_⟩, by rw [hc.conns]; exact hr⟩
    rintro (he | he)
    · exact hca he
    · have hside := (upstreamOf_live hw ha he).2.2
      rw [hf.2] at hside
      cases hside
  intro q hq
  unfold closeConnection at hclose
  cases hside : (v.conns a).side with
  | back =>
      rw [hside] at hclose
      rw [closeBack_reqPool hclose] at hq
      obtain ⟨c, hf, hr⟩ := h q hq
      apply hkeep c q hf hr
      rintro rfl
      rw [hf.2] at hside
      cases hside
  | front =>
      rw [hside] at hclose
      rw [closeFront_reqPool hclose] at hq
      obtain ⟨hq, hne⟩ := ((Pool.release_spec hw.reqPool (hw.front a ⟨ha, hside⟩).1).2 q).mp hq
      obtain ⟨c, hf, hr⟩ := h q hq
      apply hkeep c q hf hr
      rintro rfl
      exact hne hr.symm

theorem Requested.settled (h : v.Requested) (hw : v.Wired) (ha : v.Live a) :
    (v.settled (v.closeConnection a)).Requested := by
  cases hclose : v.closeConnection a with
  | error f => exact h.same ⟨rfl, rfl, rfl, rfl, rfl⟩
  | ok v₁ => exact h.close hw ha hclose

theorem Requested.setUp (h : v.Requested) (hw : v.Wired) (o : Opening) {v₁ : Server}
    (hset : v.setUp o = (a, v₁)) : v₁.Requested := by
  obtain ⟨hopen, ha, -, -⟩ := setUp_spec hw o hset
  obtain ⟨p, hnew⟩ := setUp_new hw o hset
  intro q hq
  rcases (hnew.reqLive q).mp hq with rfl | hold
  · exact ⟨a, ha, hnew.conn_r⟩
  · obtain ⟨c, hf, hr⟩ := h q hold
    obtain ⟨h1, h2⟩ := hopen.kept c hf.1
    exact ⟨c, ⟨h1, by rw [h2]; exact hf.2⟩, by rw [h2]; exact hr⟩

theorem Requested.openConnection (h : v.Requested) (hw : v.Wired) (o : Opening) :
    (v.openConnection o).Requested := by
  obtain ⟨a, v₁, hset⟩ : ∃ a v₁, v.setUp o = (a, v₁) := ⟨_, _, rfl⟩
  obtain ⟨hopen, ha, -, -⟩ := setUp_spec hw o hset
  have hreq := h.setUp hw o hset
  have hm := Server.openConnection_move hset
  generalize v.openConnection o = v' at hm ⊢
  cases hm with
  | refused =>
      have hs := Server.sameMemory_heap v₁ v₁.g.heap true
      exact (hreq.same hs).settled (hs.wired hopen.wired) ((hs.live a).mpr ha.1)
  | @closed heap =>
      have hs := Server.sameMemory_heap v₁ heap v₁.g.refused
      exact (hreq.same hs).settled (hs.wired hopen.wired) ((hs.live a).mpr ha.1)
  | @done heap => exact hreq.same (Server.sameMemory_heap v₁ heap v₁.g.refused)

theorem Requested.step (hs : v.Sound) (h : v.Requested) (hstep : v.step cfg l = some v') :
    v'.Requested := by
  cases (step_cases hstep).2 with
  | poll => exact h.same ⟨rfl, rfl, rfl, rfl, rfl⟩
  | accept o => exact h.openConnection hs.wired o
  | drop => exact h.same ⟨rfl, rfl, rfl, rfl, rfl⟩
  | skip => exact h.same ⟨rfl, rfl, rfl, rfl, rfl⟩
  | handle items hruns =>
      have hh := hs.handled hruns
      have hstore := h.store hh
      exact (hstore.same (handle_same _)).same ⟨rfl, rfl, rfl, rfl, rfl⟩
  | sweep now =>
      unfold sweepRound
      dsimp only
      split_ifs with hdue hlive
      · exact (h.settled hs.wired hlive).same ⟨rfl, rfl, rfl, rfl, rfl⟩
      · exact h.same ⟨rfl, rfl, rfl, rfl, rfl⟩
      · exact h.same ⟨rfl, rfl, rfl, rfl, rfl⟩

end requested

variable {cfg : Config}

theorem Reached.requested {good : Server → Label → Prop} {v : Server} (h : Reached cfg good v) :
    v.Requested := by
  refine h.invariant_of (fun _ => Reached.sound) Requested (fun v hv q hq => ?_)
    fun _ _ _ hs hi _ hstep => hi.step hs hstep
  exact absurd hq (hv.unrequested q)

/-- **Every connection and every request that is handed out has its owner**, what is not in use was
given back once, and the event loop and the sweep reach open connections only. -/
theorem owned_kept {good : Server → Label → Prop} {v : Server} (h : Reached cfg good v)
    (hr : v.g.refused = false) :
    v.Owned ∧ v.ReturnedOnce ∧ (∀ items a i o, v.batch = some items → .conn a i o ∈ items → v.Live a) ∧
      (v.g.heap.size > 0 → v.Live (v.g.heap.conns 1)) := by
  have hs := h.sound
  have hw := hs.wired
  have hq := h.requested
  obtain ⟨-, helem⟩ := h.tracks hr
  refine ⟨⟨hw.front, fun c c' hc hc' he => hw.front_inj hc' hc he, hw.up, fun u hu hside => ?_, hq⟩,
    ⟨⟨hw.pool.nodup, fun a ha hl => hl.2 ha⟩, hw.reqPool.nodup, fun q hq hl => hl.2 hq⟩,
    fun items a i o hb hm => ?_, fun hpos => ?_⟩
  · obtain ⟨c, hc, hrc, huc⟩ := hw.back u hu hside
    exact ⟨huc, c, hc, hrc⟩
  · apply hs.batched.live a i o
    rw [hb]
    exact hm
  · exact (helem _).mp ⟨1, le_rfl, hpos, rfl⟩

end Server

/-- A proxied request whose upstream has been opened and closed, and a second one. -/
def ownedRun : List Label :=
  Server.opened ++
  Server.single 0 0 true { idleEnv with recvs := [.got (bytes "GET /p HTTP/1.1\r\n\r\n")] } ++
  Server.single 0 1 true { idleEnv with recvs := [.got (bytes "HTTP/1.1 200 OK\r\n\r\n"), .eagain] } ++
  Server.single 0 1 true { idleEnv with recvs := [.got []] } ++ [.sweep 0] ++
  Server.single 0 0 false { idleEnv with sends := [.sent 19] } ++
  Server.single 0 0 true { idleEnv with recvs := [.got (bytes "GET /p HTTP/1.1\r\n\r\n")] }

theorem owned_kept_reused :
    ∃ v, exec (Server.step (serverConfig 60 [⟨true, bytes "/p"⟩])) Server.boot ownedRun = some v ∧
      (v.conns 0).r = 0 ∧ (v.reqs 0).uc = some 1 ∧ v.Owned := by
  have hrun : (exec (Server.step (serverConfig 60 [⟨true, bytes "/p"⟩])) Server.boot ownedRun).any
      (fun v => decide ((v.conns 0).r = 0 ∧ (v.reqs 0).uc = some 1 ∧ v.g.refused = false)) := by
    decide +kernel
  obtain ⟨v, hv, hend⟩ := exists_of_any hrun
  obtain ⟨hr, huc, hrefused⟩ := of_decide_eq_true hend
  have hreach := Reach.exec (.start Server.boot_init) (along_true _ _) hv
  exact ⟨v, hv, hr, huc, (Server.owned_kept hreach hrefused).1⟩

end SyServer
