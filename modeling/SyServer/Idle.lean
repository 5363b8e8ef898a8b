import SyServer.Registered

/-! # When a client is put out

A connection of a client is closed in two places only: in `sy_open_connection`, before it is ever
served, and in a round of `sy_connection_sweep` that finds it at the root of the heap.  Its
`active_time` is what its own last handler left: the time behind the handler, or, when that answered
`ERROR`, a time that is past already.  Handlers of other connections, also of its own upstream,
write other times.

* `stamp`: the time that a step writes for a connection.
* `step_stamp`, `step_kept`: what one step does to the time, and to the connection.
* `closed_idle`: a connection that is gone had been idle for `timeout` seconds. -/

namespace SyServer

open Transition (Reach exec exists_of_any Along along_true exec_lost observe_exec party)

namespace Server

variable {cfg : Config} {v v' : Server} {a x : ConnAddr} {isIn : Bool} {e : Env} {l : Label}

/-- The time that `sy_connection_activate` or `sy_connection_expire` writes behind a handler. -/
def stampOf (cfg : Config) (c : Clock) : Except Fault Rc → Option ℤ
  | .error _ => none
  | .ok .error => some (c.touch - cfg.timeout - 1)
  | .ok _ => some c.touch

/-- The time that a step writes for the connection whose handler it runs. -/
def stamp (cfg : Config) (a : ConnAddr) (v : Server) (l : Label) : Option ℤ :=
  match v.runs cfg l, clockOf l with
  | some (x, isIn, e), some c =>
      if x = a then
        stampOf cfg c (handler cfg e (v.session (v.conns x).r) isIn (v.conns x).side).1
      else none
  | _, _ => none

/-! ### The time of a connection -/

theorem finish_time (hw : v.Wired) (ha : v.Live a) (c : Clock) (err : Except Fault Rc) :
    (v.finish cfg c a err).g.heap.time a = (stampOf cfg c err).getD (v.g.heap.time a) := by
  -- the upstream connection is another one
  have hother : ∀ u, v.upstreamOf a = some u → a ≠ u := by
    rintro u hu rfl
    obtain ⟨-, hfront, hback⟩ := upstreamOf_live hw ha hu
    rw [hfront] at hback
    cases hback
  have hactive : (v.activate c a).g.heap.time a = c.touch := by
    unfold activate
    dsimp only
    cases hu : v.upstreamOf a with
    | none => simp [Heap.activate_time]
    | some u => simp [Heap.activate_time, Function.update_of_ne (hother u hu)]
  have hexpire : (v.expire cfg.timeout c a).g.heap.time a = c.touch - cfg.timeout - 1 := by
    unfold expire
    dsimp only
    cases hu : v.upstreamOf a with
    | none => simp [Heap.expire_time]
    | some u => simp [Heap.expire_time, Function.update_of_ne (hother u hu)]
  cases err with
  | error f => rfl
  | ok rc =>
      cases rc with
      | error => exact hexpire
      | _ => exact hactive

/-- A handler writes the time of its own connection, and of no other connection of a client. -/
theorem handle_time (hs : v.Sound) (ha : v.Front a) (h : v.runs cfg l = some (x, isIn, e)) (c : Clock)
    (hc : clockOf l = some c) :
    (v.handle cfg isIn c e x).g.heap.time a = (v.stamp cfg a l).getD (v.g.heap.time a) := by
  have hh := hs.handled h
  have hw := wired_store hh
  have hlive := (hh.live x).mpr (.inr (hs.runs h).1)
  unfold stamp
  rw [h, hc]
  dsimp only
  by_cases hxa : x = a
  · subst hxa
    rw [if_pos rfl, ← (store_retimed hh).time x ha.1 id, ← finish_time hw hlive]
    rfl
  · rw [if_neg hxa]
    apply (handle_retimed hs h c).time a ha.1
    rintro (rfl | hu)
    · exact hxa rfl
    · have hback := (upstreamOf_live hw hlive hu).2.2
      rw [((store_front hh a).mpr ha).2] at hback
      cases hback

/-- **One step** writes the time of a client's connection when it runs its handler. -/
theorem step_stamp (hs : v.Sound) (ha : v.Front a) (h : v.step cfg l = some v') :
    v'.g.heap.time a = (v.stamp cfg a l).getD (v.g.heap.time a) := by
  have hquiet : v.runs cfg l = none → v.stamp cfg a l = none := by
    intro hruns
    unfold stamp
    rw [hruns]
  cases (step_cases h).2 with
  | poll => rfl
  | accept o => exact (openConnection_retimed hs.wired o).time a ha.1 id
  | drop items hruns =>
      rw [hquiet hruns]
      rfl
  | skip items hc hruns =>
      rw [hquiet hruns]
      rfl
  | handle items hruns hc => exact handle_time hs ha hruns _ hc
  | sweep now => exact (sweepRound_retimed hs now).time a ha.1 id

/-! ### Who is closed -/

/-- The step is a round of the sweep that finds the connection at the root of the heap, overdue. -/
def PutsOut (cfg : Config) (a : ConnAddr) (v : Server) (l : Label) : Prop :=
  ∃ now, l = .sweep now ∧ v.g.heap.conns 1 = a ∧ v.g.heap.time a + cfg.timeout ≤ now

theorem settled_front (hw : v.Wired) (hx : v.Live x) (ha : v.Front a) (hne : x ≠ a) :
    (v.settled (v.closeConnection x)).Front a := by
  cases hclose : v.closeConnection x with
  | error f => exact ha
  | ok v₁ =>
      refine ((closeConnection_closed hw hx hclose).front a).mpr ⟨ha, ?_⟩
      rintro (rfl | hu)
      · exact hne rfl
      · have hback := (upstreamOf_live hw hx hu).2.2
        rw [ha.2] at hback
        cases hback

/-- **One step** closes a client's connection in the sweep only. -/
theorem step_kept (hs : v.Sound) (ha : v.Front a) (h : v.step cfg l = some v') :
    v'.Front a ∨ v.PutsOut cfg a l := by
  cases (step_cases h).2 with
  | poll => exact .inl ha
  | accept o =>
      obtain ⟨hlive, hconn⟩ := (openConnection_spec hs.wired o).kept a ha.1
      exact .inl ⟨hlive, hconn ▸ ha.2⟩
  | drop => exact .inl ha
  | skip => exact .inl ha
  | handle items hruns =>
      exact .inl (((handle_same _).front a).mpr ((store_front (hs.handled hruns) a).mpr ha))
  | sweep now =>
      unfold sweepRound
      dsimp only
      split_ifs with hdue hroot
      · by_cases hra : v.g.heap.conns 1 = a
        · exact .inr ⟨now, rfl, hra, hra ▸ hdue.2⟩
        · exact .inl (settled_front hs.wired hroot ha hra)
      · exact .inl ha
      · exact .inl ha

end Server

/-- **A client that is put out had been idle.**  When the connection of a client is gone at the end
of a run, a round of the sweep found it at the root of the heap, at least `timeout` seconds behind
the time that its last handler in the run left, or its time at the start if there was none. -/
theorem closed_idle {cfg : Config} {good : Server → Label → Prop} {v v' : Server} {a : ConnAddr}
    {ls : List Label} (h : Server.Reached cfg good v) (ha : v.Front a)
    (hexec : exec (Server.step cfg) v ls = some v') (hgone : ¬ v'.Front a) :
    ∃ ls₁ now ls₂ w, ls = ls₁ ++ .sweep now :: ls₂ ∧ exec (Server.step cfg) v ls₁ = some w ∧
      w.Front a ∧ w.g.heap.conns 1 = a ∧
        ((party (Server.step cfg) (Server.stamp cfg a) v ls₁).getLast?.getD (v.g.heap.time a)) +
          cfg.timeout ≤ now := by
  obtain ⟨ls₁, l, ls₂, w, w', rfl, hw, halong, hwa, hstep, hlost⟩ :=
    exec_lost (fun v => v.Front a) ha hexec hgone
  have hreach : Server.Reached cfg (fun _ _ => True) w :=
    Reach.exec (h.mono fun _ _ _ => trivial) (along_true v ls₁) hw
  have hsound := hreach.sound
  obtain ⟨now, rfl, hroot, hdue⟩ := (Server.step_kept hsound hwa hstep).resolve_left hlost
  refine ⟨ls₁, now, ls₂, w, rfl, hw, hwa, hroot, ?_⟩
  -- the time at the end is the last one that was written
  have htime : w.g.heap.time a = (party (Server.step cfg) (Server.stamp cfg a) v ls₁).foldl
      (fun _ t => t) (v.g.heap.time a) := by
    refine observe_exec (Server.stamp cfg a) (fun v => v.g.heap.time a) (fun _ t => t)
      (fun s l s' hg hs => ?_) (Along.keep (fun _ _ _ hs => hs.step) h.sound halong) hw
    rw [Server.step_stamp hg.1 hg.2 hs]
    cases Server.stamp cfg a s l <;> rfl
  have hlast : ∀ (ts : List ℤ) (t : ℤ), ts.foldl (fun _ t => t) t = ts.getLast?.getD t := by
    intro ts
    induction ts using List.reverseRecOn <;> simp
  rw [← hlast, ← htime]
  exact hdue

/-- A client that was served at second 5 is put out at second 70. -/
def idleRun : List Label := Server.single 5 0 true idleEnv ++ [.poll [], .sweep 70]

theorem closed_idle_run :
    ∃ v v', exec (Server.step (serverConfig 60 [])) Server.boot Server.opened = some v ∧
      exec (Server.step (serverConfig 60 [])) v idleRun = some v' ∧ v.Front 0 ∧ ¬ v'.Front 0 ∧
      ∃ ls₁ now ls₂ w, idleRun = ls₁ ++ .sweep now :: ls₂ ∧
        exec (Server.step (serverConfig 60 [])) v ls₁ = some w ∧ w.Front 0 ∧ w.g.heap.conns 1 = 0 ∧
          ((party (Server.step (serverConfig 60 [])) (Server.stamp (serverConfig 60 []) 0) v
            ls₁).getLast?.getD (v.g.heap.time 0)) + 60 ≤ now := by
  have hrun : ((exec (Server.step (serverConfig 60 [])) Server.boot Server.opened).any fun v =>
      decide (v.Front 0) &&
        (exec (Server.step (serverConfig 60 [])) v idleRun).any fun v' => decide (¬ v'.Front 0)) := by
    decide +kernel
  obtain ⟨v, hv, hrest⟩ := exists_of_any hrun
  obtain ⟨hfront, hrest⟩ := (Bool.and_eq_true _ _).mp hrest
  obtain ⟨v', hv', hend⟩ := exists_of_any hrest
  have hreach : Server.Reached (serverConfig 60 []) (fun _ _ => True) v :=
    Reach.exec (.start Server.boot_init) (along_true _ _) hv
  exact ⟨v, v', hv, hv', of_decide_eq_true hfront, of_decide_eq_true hend,
    closed_idle hreach (of_decide_eq_true hfront) hv' (of_decide_eq_true hend)⟩

end SyServer
