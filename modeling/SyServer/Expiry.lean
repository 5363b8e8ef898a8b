import SyServer.Sweep

/-! # Expired connections

`sy_connection_expire` sets `active_time` so far back that the connection is expired at once, and
leaves it to the next sweep.  Nothing writes that time again until then, but for one case: an
upstream connection expires alone when its own handler answers `ERROR`, and
`sy_connection_activate` of its front connection sets the times of both (`revives`).

`Doomed` is the invariant of the runs in which that does not happen.  `Clearing` is that of a sweep
that begins in a heap in order: what was expired stays on top, as long as no round hides a connection
that was overdue (`Buries`). -/

namespace SyServer

open Transition (Reach Along exec exists_of_any)

namespace Server

variable {cfg : Config} {v v' : Server} {a : ConnAddr} {isIn : Bool} {e : Env} {l : Label}

/-- The clock does not go back. -/
def Clocked (v : Server) : Label → Prop
  | .accept o => v.now ≤ o.now
  | .serveIn c _ | .serveOut c _ => v.now ≤ c.check ∧ c.check ≤ c.touch ∧ c.touch ≤ c.touchBack
  | .sweep now => v.now ≤ now
  | _ => True

instance (v : Server) : DecidablePred v.Clocked
  | .poll _ => .isTrue trivial
  | .accept _ => inferInstanceAs (Decidable (_ ≤ _))
  | .accepted => .isTrue trivial
  | .serveIn _ _ => inferInstanceAs (Decidable (_ ∧ _ ∧ _))
  | .serveOut _ _ => inferInstanceAs (Decidable (_ ∧ _ ∧ _))
  | .sweep _ => inferInstanceAs (Decidable (_ ≤ _))

/-- The step applies `sy_connection_activate` to a front connection whose upstream connection was
expired. -/
def revives (cfg : Config) (v : Server) (l : Label) : Bool :=
  match v.runs cfg l with
  | some (a, isIn, e) =>
      (v.upstreamOf a).any (fun u => decide (u ∈ v.condemned)) &&
        match (handler cfg e (v.session (v.conns a).r) isIn (v.conns a).side).1 with
        | .ok rc => rc ≠ .error
        | .error _ => false
  | none => false

/-- What was expired is still open, and its time is past. -/
structure Doomed (cfg : Config) (v : Server) : Prop where
  live : ∀ x ∈ v.condemned, v.Live x
  past : ∀ x ∈ v.condemned, v.g.heap.time x + cfg.timeout < v.now

/-- The clock has gone on, and nothing else was written that counts. -/
theorem Doomed.later (h : Doomed cfg v) (hg : v'.g = v.g) (hc : v'.condemned = v.condemned)
    (hnow : v.now ≤ v'.now) : Doomed cfg v' := by
  refine ⟨fun x hx => ?_, fun x hx => ?_⟩
  · rw [hc] at hx
    show v'.g.pool.Live x
    rw [hg]
    exact h.live x hx
  · rw [hc] at hx
    have := h.past x hx
    rw [hg]
    omega

/-- A connection that was expired is expired at every later time. -/
theorem Doomed.expired (h : Doomed cfg v) {x : ConnAddr} (hx : x ∈ v.condemned) {t : ℤ} (ht : v.now ≤ t) :
    v.g.heap.isExpired cfg.timeout t x = true := by
  have := h.past x hx
  apply decide_eq_true
  omega

/-! ### Closing and opening -/

theorem settled_condemned (v : Server) (a : ConnAddr) :
    (∀ x ∈ (v.settled (v.closeConnection a)).condemned, x ∈ v.condemned) ∧
      (v.settled (v.closeConnection a)).now = v.now := by
  cases h : v.closeConnection a with
  | error f => exact ⟨fun _ => id, rfl⟩
  | ok v₁ =>
      have hframe := closeConnection_frame h
      exact ⟨fun x hx => ((hframe.condemned x).mp hx).1, hframe.now⟩

theorem openConnection_condemned (v : Server) (o : Opening) :
    (∀ x ∈ (v.openConnection o).condemned, x ∈ v.condemned) ∧ (v.openConnection o).now = o.now := by
  obtain ⟨a, v₁, hset⟩ : ∃ a v₁, v.setUp o = (a, v₁) := ⟨_, _, rfl⟩
  have hsame : v₁.condemned = v.condemned ∧ v₁.now = o.now := by
    unfold setUp at hset
    cases hset
    exact ⟨rfl, rfl⟩
  rw [← hsame.1, ← hsame.2]
  have hm := openConnection_move hset
  generalize v.openConnection o = v' at hm ⊢
  cases hm with
  | refused => exact settled_condemned _ a
  | closed => exact settled_condemned _ a
  | done => exact ⟨fun _ => id, rfl⟩

theorem Doomed.opened (h : Doomed cfg v) (hw : v.Wired) (o : Opening) (ho : v.now ≤ o.now) :
    Doomed cfg (v.openConnection o) := by
  obtain ⟨hsub, hnow⟩ := openConnection_condemned v o
  refine ⟨fun x hx => ?_, fun x hx => ?_⟩
  · exact ((openConnection_spec hw o).kept x (h.live x (hsub x hx))).1
  · have hlive := h.live x (hsub x hx)
    have := h.past x (hsub x hx)
    rw [(openConnection_retimed hw o).time x hlive id, hnow]
    omega

theorem Doomed.swept (h : Doomed cfg v) (hs : v.Sound) {now : ℤ} (hnow : v.now ≤ now) :
    Doomed cfg (v.sweepRound cfg now) := by
  unfold sweepRound
  dsimp only
  split_ifs with hdue hlive
  · cases hclose : v.closeConnection (v.g.heap.conns 1) with
    | error f => exact h.later rfl rfl hnow
    | ok v₁ =>
        have hframe := closeConnection_frame hclose
        have hclosed := closeConnection_closed hs.wired hlive hclose
        refine ⟨fun x hx => ?_, fun x hx => ?_⟩
        · obtain ⟨hx', hgone⟩ := (hframe.condemned x).mp hx
          exact (hclosed.live x).mpr ⟨h.live x hx', hgone⟩
        · have := h.past x ((hframe.condemned x).mp hx).1
          show v₁.g.heap.time x + _ < now
          rw [hframe.time]
          omega
  · exact h.later rfl rfl le_rfl
  · exact h.later rfl rfl hnow

/-! ### Handlers -/

/-- The upstream connection that is activated behind a handler was there before, or is new. -/
theorem upstreamOf_store (hs : v.Sound) (hruns : v.runs cfg l = some (a, isIn, e)) {u : ConnAddr}
    (hu : (v.store (v.left cfg a isIn e)).upstreamOf a = some u) :
    v.upstreamOf a = some u ∨ ¬ v.Live u := by
  have hh := hs.handled hruns
  have hlive := (hh.live a).mpr (.inr (hs.runs hruns).1)
  obtain ⟨-, hside, -⟩ := upstreamOf_live (wired_store hh) hlive hu
  have hfront : v.Front a := (store_front hh a).mp ⟨hlive, hside⟩
  have hself : v.frontOf a = a := by
    unfold frontOf
    rw [hfront.2]
  rw [hself] at hh
  rw [upstreamOf_front hside, store_conns_self hh] at hu
  rw [show (v.left cfg a isIn e).c.r = (v.conns a).r from
    hh.frame.cr.trans (congrArg Connection.r hh.session_c), store_reqs_self hh] at hu
  rw [upstreamOf_front hfront.2]
  rcases (hh.up hu).2.2 with ⟨hold, -⟩ | ⟨-, hnew⟩
  · exact .inl hold
  · exact .inr hnew

/-- The times that `sy_connection_expire` sets. -/
theorem expire_past (v : Server) {timeout now : ℤ} {c : Clock} (h1 : c.touch ≤ now)
    (h2 : c.touchBack ≤ now) {x : ConnAddr} (hx : v.Touched a x) :
    (v.expire timeout c a).g.heap.time x + timeout < now := by
  unfold expire
  dsimp only
  cases hu : v.upstreamOf a with
  | none =>
      obtain rfl : x = a := hx.resolve_right (by rw [hu]; simp)
      rw [Heap.expire_time, Function.update_self]
      omega
  | some u =>
      dsimp only
      rw [Heap.expire_time]
      by_cases hxu : x = u
      · rw [hxu, Function.update_self]
        omega
      · have hxa : x = a := hx.resolve_right (by rw [hu]; simpa using Ne.symm hxu)
        rw [Function.update_of_ne hxu, Heap.expire_time, hxa, Function.update_self]
        omega

theorem Doomed.handled (h : Doomed cfg v) (hs : v.Sound) {c : Clock}
    (hclock : v.now ≤ c.check ∧ c.check ≤ c.touch ∧ c.touch ≤ c.touchBack)
    (hruns : v.runs cfg l = some (a, isIn, e))
    (hexp : v.g.heap.isExpired cfg.timeout c.check a = false) (hspare : revives cfg v l = false) :
    Doomed cfg (v.handle cfg isIn c e a) := by
  have hh := hs.handled hruns
  have hw := wired_store hh
  have hlive := (hh.live a).mpr (.inr (hs.runs hruns).1)
  have htime := (handle_retimed hs hruns c).time
  have hsame := @handle_same cfg v a isIn e c
  have hkeep : ∀ x, (v.handle cfg isIn c e a).Live x ↔ (v.store (v.left cfg a isIn e)).Live x := by
    intro x
    show Pool.Live _ x ↔ Pool.Live _ x
    rw [hsame.pool]
  have hnow : (v.handle cfg isIn c e a).now = c.touchBack := rfl
  -- what the handler did not touch keeps its time
  have hold : ∀ x ∈ v.condemned, ¬ (v.store (v.left cfg a isIn e)).Touched a x →
      (v.handle cfg isIn c e a).g.heap.time x + cfg.timeout < c.touchBack := by
    intro x hx hn
    have := h.past x hx
    rw [htime x (h.live x hx) hn]
    omega
  have hopen : ∀ x ∈ v.condemned, (v.handle cfg isIn c e a).Live x := by
    intro x hx
    exact (hkeep x).mpr ((hh.live x).mpr (.inr (h.live x hx)))
  obtain ⟨err, herr⟩ : ∃ err, (handler cfg e (v.session (v.conns a).r) isIn (v.conns a).side).1 = err :=
    ⟨_, rfl⟩
  have hrun : v.handle cfg isIn c e a =
      { (v.store (v.left cfg a isIn e)).finish cfg c a err with now := c.touchBack } := by
    rw [← herr]
    rfl
  cases err with
  | error f =>
      refine ⟨fun x hx => ?_, fun x hx => ?_⟩
      all_goals
        have hx' : x ∈ v.condemned := by
          rw [hrun] at hx
          exact hx
      · exact hopen x hx'
      · have := h.past x hx'
        have hg : (v.handle cfg isIn c e a).g = (v.store (v.left cfg a isIn e)).g := by
          rw [hrun]
          rfl
        rw [hg, (store_retimed hh).time x (h.live x hx') id, hnow]
        omega
  | ok rc =>
      by_cases hrc : rc = .error
      · -- both connections join the list
        subst hrc
        change v.handle cfg isIn c e a =
          { (v.store (v.left cfg a isIn e)).expire cfg.timeout c a with now := c.touchBack } at hrun
        have hlist : ∀ x ∈ (v.handle cfg isIn c e a).condemned,
            (v.store (v.left cfg a isIn e)).Touched a x ∨ x ∈ v.condemned := by
          intro x hx
          rw [hrun] at hx
          rcases List.mem_append.mp hx with hx | hx
          · rcases List.mem_cons.mp hx with hx | hx
            · exact .inl (.inl hx)
            · exact .inl (.inr (Option.mem_toList.mp hx))
          · exact .inr hx
        refine ⟨fun x hx => ?_, fun x hx => ?_⟩
        · rcases hlist x hx with (rfl | hu) | hx
          · exact (hkeep x).mpr hlive
          · exact (hkeep x).mpr (upstreamOf_live hw hlive hu).1
          · exact hopen x hx
        · by_cases ht : (v.store (v.left cfg a isIn e)).Touched a x
          · have hpast : ((v.store (v.left cfg a isIn e)).expire cfg.timeout c a).g.heap.time x +
                cfg.timeout < c.touchBack := expire_past _ hclock.2.2 le_rfl ht
            rw [hrun]
            exact hpast
          · exact hold x ((hlist x hx).resolve_left ht) ht
      · -- neither the connection nor its upstream was expired
        have hlist : (v.handle cfg isIn c e a).condemned = v.condemned := by
          rw [hrun]
          cases rc <;> first | rfl | exact absurd rfl hrc
        have hfree : ∀ x ∈ v.condemned, ¬ (v.store (v.left cfg a isIn e)).Touched a x := by
          rintro x hx (rfl | hu)
          · rw [h.expired hx hclock.1] at hexp
            cases hexp
          · rcases upstreamOf_store hs hruns hu with hu | hnew
            · unfold revives at hspare
              rw [hruns] at hspare
              dsimp only at hspare
              rw [herr, hu] at hspare
              simp [hx, hrc] at hspare
            · exact hnew (h.live x hx)
        refine ⟨fun x hx => ?_, fun x hx => ?_⟩
        · exact hopen x (hlist ▸ hx)
        · exact hold x (hlist ▸ hx) (hfree x (hlist ▸ hx))

/-! ### Runs of the worker -/

/-- One step keeps what was expired expired. -/
theorem Doomed.step (h : Doomed cfg v) (hs : v.Sound) (hclock : v.Clocked l)
    (hspare : revives cfg v l = false) (hstep : v.step cfg l = some v') : Doomed cfg v' := by
  have hof : ∀ {c : Clock}, clockOf l = some c →
      v.now ≤ c.check ∧ c.check ≤ c.touch ∧ c.touch ≤ c.touchBack := by
    intro c hc
    cases l <;> cases hc <;> exact hclock
  cases (step_cases hstep).2 with
  | poll => exact h.later rfl rfl le_rfl
  | accept o => exact h.opened hs.wired o hclock
  | drop => exact h.later rfl rfl le_rfl
  | skip items hc => exact h.later rfl rfl (hof hc).1
  | handle items hruns hc hexp =>
      have hd := h.handled hs (hof hc) hruns hexp hspare
      exact ⟨hd.live, hd.past⟩
  | sweep now => exact h.swept hs hclock

theorem Reached.doomed (h : Reached cfg (fun v l => v.Clocked l ∧ revives cfg v l = false) v) :
    Doomed cfg v := by
  refine h.invariant_of (fun _ => Reached.sound) (Doomed cfg) (fun v hv => ?_)
    fun v l v' hs hd hgood hstep => hd.step hs hgood.1 hgood.2 hstep
  refine ⟨fun x hx => ?_, fun x hx => ?_⟩
  all_goals
    rw [hv.condemned] at hx
    cases hx

/-! ### The sweep -/

/-- The round closes a front connection, and then an upstream whose place hides a connection that was
overdue at `t₀`. -/
def Buries (cfg : Config) (t₀ : ℤ) (v : Server) : Label → Prop
  | .sweep now => v.Due cfg now ∧ ∃ u ∈ v.upstreamOf (v.g.heap.conns 1),
      ∃ heap ∈ (v.g.heap.unregister (v.g.heap.conns 1)).toOption, heap.Hides cfg.timeout t₀ u
  | _ => False

instance (cfg : Config) (t₀ : ℤ) (v : Server) : DecidablePred (v.Buries cfg t₀)
  | .sweep _ => inferInstanceAs (Decidable (_ ∧ _))
  | .poll _ | .accept _ | .accepted | .serveIn _ _ | .serveOut _ _ => .isFalse id

/-- Within a sweep that began at `t₀`: the connections that were overdue then are on top, and those
that were expired are among them. -/
structure Clearing (cfg : Config) (t₀ : ℤ) (v : Server) : Prop where
  stored : v.Stored
  dead : v.dead = none
  clock : t₀ ≤ v.now
  first : v.g.heap.OverdueFirst cfg.timeout t₀
  live : ∀ x ∈ v.condemned, v.Live x
  overdue : ∀ x ∈ v.condemned, v.g.heap.Overdue cfg.timeout t₀ x

/-- A heap in order, in which nothing was refused. -/
theorem Doomed.clearing (h : Doomed cfg v) (hs : v.Sound) (ht : v.g.Tracks) (hr : v.g.refused = false)
    (hlive : v.dead = none) (hsorted : v.g.heap.Sorted) : Clearing cfg v.now v where
  stored := ⟨hs.wired, (ht hr).1, (ht hr).2⟩
  dead := hlive
  clock := le_rfl
  first := hsorted.overdueFirst cfg.timeout v.now
  live := h.live
  overdue x hx := by
    have := h.past x hx
    unfold Heap.Overdue
    omega

/-- What one round leaves of the connections that were expired. -/
inductive Cleared (v v' : Server) : Prop
  | closed (hbatch : v'.batch = some []) (hsize : v'.g.heap.size < v.g.heap.size)
  | returned (hbatch : v'.batch = none) (hnone : v'.condemned = [])

/-- **One round** closes a connection, or there is none left that was expired. -/
theorem Clearing.round {t₀ now : ℤ} (h : Clearing cfg t₀ v) (hgo : v.batch = some []) (hnow : v.now ≤ now)
    (hspare : ¬ v.Buries cfg t₀ (.sweep now)) :
    Clearing cfg t₀ (v.sweepRound cfg now) ∧ Cleared v (v.sweepRound cfg now) := by
  rw [sweepRound_eq]
  by_cases hdue : v.Due cfg now
  · have hroot : v.Live (v.g.heap.conns 1) := (h.stored.elem _).mp ⟨1, le_rfl, hdue.1, rfl⟩
    obtain ⟨v₁, hclose, hs₁, hsize⟩ := h.stored.close hroot
    have hclosed := closeConnection_closed h.stored.wired hroot hclose
    have hframe := closeConnection_frame hclose
    have hfirst := (h.stored.close_overdueFirst hdue.1 h.first hclose).mpr fun hx => hspare ⟨hdue, hx⟩
    have hsame : SameMemory v₁ { v₁ with now := now } := ⟨rfl, rfl, rfl, rfl, rfl⟩
    rw [if_pos hdue, if_pos hroot, hclose]
    refine ⟨⟨⟨hsame.wired hs₁.wired, hs₁.indexed, hs₁.elem⟩, hclosed.dead.trans h.dead, h.clock.trans hnow,
      hfirst, fun x hx => ?_, fun x hx => ?_⟩, .closed (hclosed.batch.trans hgo) hsize⟩
    · obtain ⟨hx, hgone⟩ := (hframe.condemned x).mp hx
      exact (hclosed.live x).mpr ⟨h.live x hx, hgone⟩
    · have hover := h.overdue x ((hframe.condemned x).mp hx).1
      show t₀ ≥ v₁.g.heap.time x + cfg.timeout
      rw [hframe.time]
      exact hover
  · rw [if_neg hdue]
    have hsame : SameMemory v { v with batch := none, now := now } := ⟨rfl, rfl, rfl, rfl, rfl⟩
    obtain ⟨hs, hdead, hclock, hfirst, hopen, hover⟩ := h
    refine ⟨⟨⟨hsame.wired hs.wired, hs.indexed, hs.elem⟩, hdead, hclock.trans hnow, hfirst, hopen, hover⟩,
      .returned rfl ?_⟩
    -- an expired connection would be behind a root that is due
    apply List.eq_nil_iff_forall_not_mem.mpr
    intro x hx
    have helem := (hs.elem x).mpr (hopen x hx)
    refine hfirst.root (fun hroot => hdue ⟨?_, ?_⟩) helem (hover x hx)
    · obtain ⟨j, h1, hj, -⟩ := helem
      exact h1.trans hj
    · unfold Heap.Overdue at hroot
      omega

/-- **A sweep** that buries none goes on until none of the expired connections is open. -/
theorem Clearing.sweep {t₀ : ℤ} {nows : List ℤ} (h : Clearing cfg t₀ v) (hgo : v.batch = some [])
    (hgood : Along (step cfg) (fun w l => w.Clocked l ∧ ¬ w.Buries cfg t₀ l) v (nows.map .sweep))
    (hrun : exec (step cfg) v (nows.map .sweep) = some v') :
    v'.dead = none ∧ (v'.batch = some [] ∧ v'.g.heap.size + nows.length ≤ v.g.heap.size ∨
      v'.batch = none ∧ v'.condemned = []) := by
  induction nows generalizing v with
  | nil =>
      cases hrun
      exact ⟨h.dead, .inl ⟨hgo, le_rfl⟩⟩
  | cons now nows ih =>
      obtain ⟨v₁, hstep, hrest⟩ := Option.bind_eq_some_iff.mp hrun
      obtain ⟨⟨hnow, hspare⟩, hgood'⟩ := hgood
      have hnext : v.sweepRound cfg now = v₁ := by
        unfold step next at hstep
        rw [if_pos h.dead, hgo] at hstep
        exact Option.some.inj hstep
      obtain ⟨h₁, hround⟩ := h.round hgo hnow hspare
      rw [hnext] at h₁ hround
      cases hround with
      | closed hbatch hsize =>
          obtain ⟨hdead, hend⟩ := ih h₁ hbatch (hgood' v₁ hstep) hrest
          refine ⟨hdead, hend.imp_left fun hlast => ⟨hlast.1, ?_⟩⟩
          rw [List.length_cons]
          omega
      | returned hbatch hnone =>
          cases nows with
          | nil =>
              cases hrest
              exact ⟨h₁.dead, .inr ⟨hbatch, hnone⟩⟩
          | cons now' nows =>
              -- a sweep that has returned has no further round
              obtain ⟨v₂, hstep', -⟩ := Option.bind_eq_some_iff.mp hrest
              unfold step next at hstep'
              rw [if_pos h₁.dead, hbatch] at hstep'
              cases hstep'

end Server

/-- **Expiry is final** in every run in which no step activates a front connection whose upstream
connection was expired: what was expired is expired at every later time, no handler runs on it, and
the next sweep closes it, where the heap is in order when the sweep begins and no round buries one. -/
theorem expiry_final {cfg : Config} {v : Server}
    (h : Server.Reached cfg (fun v l => v.Clocked l ∧ Server.revives cfg v l = false) v) :
    (∀ a ∈ v.condemned, ∀ t, v.now ≤ t → v.g.heap.isExpired cfg.timeout t a = true) ∧
    (∀ l a isIn e, v.Clocked l → v.runs cfg l = some (a, isIn, e) → a ∉ v.condemned) ∧
    ∀ (nows : List ℤ) (v' : Server), v.dead = none → v.batch = some [] → v.g.refused = false → v.g.heap.Sorted →
      Along (Server.step cfg) (fun w l => w.Clocked l ∧ ¬ w.Buries cfg v.now l) v (nows.map .sweep) →
      exec (Server.step cfg) v (nows.map .sweep) = some v' →
        v'.dead = none ∧ (v'.batch = some [] ∧ v'.g.heap.size + nows.length ≤ v.g.heap.size ∨
          v'.batch = none ∧ v'.condemned = []) := by
  have hd := h.doomed
  refine ⟨fun a ha t ht => hd.expired ha ht, fun l a isIn e hclock hruns ha => ?_,
    fun nows v' hlive hbatch hr hsorted hgood hrun => ?_⟩
  · -- a handler runs behind a check of its connection
    have hcheck : ∃ t, v.now ≤ t ∧ v.g.heap.isExpired cfg.timeout t a = false := by
      unfold Server.runs at hruns
      split at hruns
      · split_ifs at hruns with hexp
        cases hruns
        exact ⟨_, hclock.1, Bool.eq_false_of_not_eq_true hexp⟩
      · split_ifs at hruns with hexp
        cases hruns
        exact ⟨_, hclock.1, Bool.eq_false_of_not_eq_true hexp⟩
      · cases hruns
    obtain ⟨t, ht, hexp⟩ := hcheck
    rw [hd.expired ha ht] at hexp
    cases hexp
  · exact (hd.clearing h.sound h.tracks hr hlive hsorted).sweep hbatch hgood hrun

/-- A proxied request whose upstream has answered and closed, before the sweep. -/
def closingRun : List Label :=
  Server.opened ++
  Server.single 0 0 true { idleEnv with recvs := [.got (bytes "GET /p HTTP/1.1\r\n\r\n")] } ++
  Server.single 0 1 false { idleEnv with sends := [.sent 19] } ++
  Server.single 0 1 true { idleEnv with recvs := [.got (bytes "HTTP/1.1 200 OK\r\n\r\n")] } ++
  [.poll [.conn 1 true false, .conn 0 false true], .serveIn (.at 0) { idleEnv with recvs := [.got []] },
    .serveOut (.at 0) idleEnv]

/-- The same, and the client's connection is not ready. -/
def expiredRun : List Label :=
  Server.opened ++
  Server.single 0 0 true { idleEnv with recvs := [.got (bytes "GET /p HTTP/1.1\r\n\r\n")] } ++
  Server.single 0 1 false { idleEnv with sends := [.sent 19] } ++
  Server.single 0 1 true { idleEnv with recvs := [.got (bytes "HTTP/1.1 200 OK\r\n\r\n")] } ++
  [.poll [.conn 1 true false], .serveIn (.at 0) { idleEnv with recvs := [.got []] },
    .serveOut (.at 0) idleEnv]

/-- The upstream connection is expired, and closed by the sweep behind it. -/
theorem expiry_final_swept : ∃ v v',
    exec (Server.step (serverConfig 60 [⟨true, bytes "/p"⟩])) Server.boot expiredRun = some v ∧
      1 ∈ v.condemned ∧ v.g.heap.isExpired 60 v.now 1 = true ∧
      exec (Server.step (serverConfig 60 [⟨true, bytes "/p"⟩])) v ([0, 0].map .sweep) = some v' ∧
      v'.batch = none ∧ v'.condemned = [] := by
  have hrun : (exec (Server.step (serverConfig 60 [⟨true, bytes "/p"⟩])) Server.boot expiredRun).any
      (fun v => (exec (Server.step (serverConfig 60 [⟨true, bytes "/p"⟩])) v ([0, 0].map .sweep)).any
        fun v' => decide (1 ∈ v.condemned ∧ v.dead = none ∧ v.batch = some [] ∧ v.g.refused = false ∧
          v.g.heap.size = 2 ∧ v.g.heap.time (v.g.heap.conns 1) ≤ v.g.heap.time (v.g.heap.conns 2) ∧
          Along (Server.step (serverConfig 60 [⟨true, bytes "/p"⟩]))
            (fun w l => w.Clocked l ∧ ¬ w.Buries (serverConfig 60 [⟨true, bytes "/p"⟩]) v.now l) v
            ([0, 0].map .sweep) ∧ v'.batch = none)) = true := by
    decide +kernel
  obtain ⟨v, hv, hv'⟩ := exists_of_any hrun
  obtain ⟨v', hsweep, hend⟩ := exists_of_any hv'
  obtain ⟨hin, hlive, hbatch, hr, hsize, hroot, hgood, hret⟩ := of_decide_eq_true hend
  have halong : Along (Server.step (serverConfig 60 [⟨true, bytes "/p"⟩]))
      (fun v l => v.Clocked l ∧ Server.revives (serverConfig 60 [⟨true, bytes "/p"⟩]) v l = false)
      Server.boot expiredRun := by
    decide +kernel
  have hsorted : v.g.heap.Sorted := by
    intro k h2 hk
    obtain rfl : k = 2 := by omega
    exact hroot
  obtain ⟨hexp, -, hclear⟩ := expiry_final (Reach.exec (.start Server.boot_init) halong hv)
  obtain ⟨-, ⟨hgo, -⟩ | ⟨-, hnone⟩⟩ := hclear [0, 0] v' hlive hbatch hr hsorted hgood hsweep
  · rw [hret] at hgo
    cases hgo
  · exact ⟨v, v', hv, hin, hexp 1 hin v.now le_rfl, hsweep, hret, hnone⟩

/-- The front connection of an expired upstream connection is served: both are activated. -/
theorem closing_revived :
    ¬ ∀ (cfg : Config) (v : Server), Server.Reached cfg Server.Clocked v →
      ∀ a ∈ v.condemned, ∀ t, v.now ≤ t → v.g.heap.isExpired cfg.timeout t a = true := by
  intro hall
  have hrun : (exec (Server.step (serverConfig 60 [⟨true, bytes "/p"⟩])) Server.boot
      (closingRun ++ [.serveOut (.at 0) idleEnv])).any
      fun v => decide (1 ∈ v.condemned ∧ v.g.heap.isExpired 60 v.now 1 = false) := by
    decide +kernel
  obtain ⟨v, hv, hend⟩ := exists_of_any hrun
  obtain ⟨hin, hnot⟩ := of_decide_eq_true hend
  have halong : Along (Server.step (serverConfig 60 [⟨true, bytes "/p"⟩])) Server.Clocked Server.boot
      (closingRun ++ [.serveOut (.at 0) idleEnv]) := by
    decide +kernel
  have hreach := Reach.exec (.start Server.boot_init) halong hv
  have hexp := hall _ v hreach 1 hin v.now le_rfl
  exact absurd (hexp.symm.trans hnot) (by simp)

end SyServer
