import SyServer.Registered

/-! # The rounds of the event loop

How long a worker can be away from `epoll_wait`.  An entry of `events[]` costs one turn for each of
its two events, an event can register one upstream connection, and the sweep takes one turn for each
connection it closes.  `work` is what is left to do: the entries that are still to be served, and
the registered connections, which a sweep may close.

* `size_le_of_live`: the heap grows by the connections that are opened.
* `step_work`: every step but `epoll_wait` and `accept` takes away from the work.
* `worker_returns`: over a whole run the steps are paid for by what `epoll_wait` and `accept`
  brought, and the worker gets back to `epoll_wait` as soon as `accept` answers no more. -/

namespace SyServer

open Transition (Reach exec along_true exists_of_any)

/-! ### What is left to do -/

/-- The turns an entry can cost: its own, and those of the upstream connections it opens. -/
def Item.work : Item → ℕ
  | listener => 1
  | conn _ in_ out => (if in_ then 2 else 0) + if out then 2 else 1

/-- The entries of `events[]`, and the sweep behind them. -/
def batchWork : Option (List Item) → ℕ
  | none => 0
  | some items => (items.map Item.work).sum + 1

/-- What a step brings in. -/
def Label.work : Label → ℕ
  | .poll items => (items.map Item.work).sum + 2
  | .accept _ => 2
  | _ => 0

namespace Heap

variable {h h' : Heap}

/-- The connections in the array. -/
def registered (h : Heap) : Finset ConnAddr := (Finset.Icc 1 h.size).image h.conns

theorem mem_registered {c : ConnAddr} : c ∈ h.registered ↔ h.Elem c := by
  simp [registered, Elem, and_assoc]

theorem Indexed.card_registered (hi : h.Indexed) : h.registered.card = h.size := by
  have hinj : Set.InjOn h.conns (Finset.Icc 1 h.size) := by
    intro i hi' j hj e
    simp only [Finset.coe_Icc, Set.mem_Icc] at hi' hj
    rw [← hi i hi'.1 hi'.2, e, hi j hj.1 hj.2]
  rw [registered, Finset.card_image_of_injOn hinj]
  simp

end Heap

/-- The heap grows by the connections that are opened. -/
theorem size_le_of_live {g g' : Shared} (ht : g.Tracks) (ht' : g'.Tracks) (hr : g.refused = false)
    (hr' : g'.refused = false) (o : Option ConnAddr)
    (hlive : ∀ x, g'.pool.Live x → o = some x ∨ g.pool.Live x) :
    g'.heap.size ≤ g.heap.size + o.toFinset.card := by
  obtain ⟨hi, helem⟩ := ht hr
  obtain ⟨hi', helem'⟩ := ht' hr'
  rw [← hi.card_registered, ← hi'.card_registered]
  refine le_trans (Finset.card_le_card (t := g.heap.registered ∪ o.toFinset) fun x hx => ?_)
    (Finset.card_union_le _ _)
  rw [Heap.mem_registered, helem'] at hx
  rw [Finset.mem_union, Heap.mem_registered, helem, Option.mem_toFinset, Option.mem_def]
  exact (hlive x hx).symm

namespace Server

/-- What is left to do. -/
def work (v : Server) : ℕ := batchWork v.batch + v.g.heap.size

variable {cfg : Config} {v v' : Server} {l : Label} {a : ConnAddr} {isIn : Bool} {e : Env}

/-- A registration that was refused stays on record. -/
theorem step_refused (hs : v.Sound) (h : v.step cfg l = some v') (hr : v'.g.refused = false) :
    v.g.refused = false := by
  refine Bool.eq_false_of_not_eq_true fun hr₀ => ?_
  have hkept : v'.g.refused = true := by
    cases (step_cases h).2 with
    | poll => exact hr₀
    | accept o => exact (openConnection_retimed hs.wired o).refused hr₀
    | drop => exact hr₀
    | skip => exact hr₀
    | handle items hruns => exact (handle_retimed hs hruns _).refused hr₀
    | sweep now => exact (sweepRound_retimed hs now).refused hr₀
  rw [hr] at hkept
  cases hkept

/-- A handler opens the upstream connection of its session, or none. -/
theorem handle_live (hs : v.Sound) (h : v.runs cfg l = some (a, isIn, e)) (c : Clock) (x : ConnAddr) :
    (v.handle cfg isIn c e a).Live x ↔ (v.left cfg a isIn e).r.uc = some x ∨ v.Live x := by
  rw [← (hs.handled h).live x]
  show Pool.Live _ x ↔ Pool.Live _ x
  rw [(handle_same c).pool]

/-- Closing opens nothing. -/
theorem settled_live (hw : v.Wired) (ha : v.Live a) {x : ConnAddr}
    (hx : (v.settled (v.closeConnection a)).Live x) : v.Live x := by
  cases h : v.closeConnection a with
  | error f =>
      rw [h] at hx
      exact hx
  | ok v₁ =>
      rw [h] at hx
      exact (((closeConnection_closed hw ha h).live x).mp hx).1

/-- `accept` opens one connection at most. -/
theorem openConnection_live (hw : v.Wired) (o : Opening) :
    ∃ a, ∀ x, (v.openConnection o).Live x → some a = some x ∨ v.Live x := by
  obtain ⟨a, v₁, hset⟩ : ∃ a v₁, v.setUp o = (a, v₁) := ⟨_, _, rfl⟩
  obtain ⟨hopen, ha, -⟩ := setUp_spec hw o hset
  obtain ⟨q, hnew⟩ := setUp_new hw o hset
  refine ⟨a, fun x hx => ?_⟩
  have hold : v₁.Live x → some a = some x ∨ v.Live x := fun h =>
    ((hnew.live x).mp h).imp_left fun e => congrArg some e.symm
  have hm := openConnection_move hset
  generalize v.openConnection o = v' at hm hx
  cases hm with
  | refused =>
      have hs := sameMemory_heap v₁ v₁.g.heap true
      exact hold ((hs.live x).mp (settled_live (hs.wired hopen.wired) ((hs.live a).mpr ha.1) hx))
  | @closed heap hreg =>
      have hs := sameMemory_heap v₁ heap v₁.g.refused
      exact hold ((hs.live x).mp (settled_live (hs.wired hopen.wired) ((hs.live a).mpr ha.1) hx))
  | done => exact hold hx

theorem openConnection_size (hs : v.Sound) (ht : v.g.Tracks) (o : Opening) (hr : v.g.refused = false)
    (hr' : (v.openConnection o).g.refused = false) :
    (v.openConnection o).g.heap.size ≤ v.g.heap.size + 1 := by
  obtain ⟨a, hlive⟩ := openConnection_live hs.wired o
  exact size_le_of_live ht ((openConnection_retimed hs.wired o).tracks ht) hr hr' (some a) hlive

theorem handle_size (hs : v.Sound) (ht : v.g.Tracks) (h : v.runs cfg l = some (a, isIn, e)) (c : Clock)
    (hr : v.g.refused = false) (hr' : (v.handle cfg isIn c e a).g.refused = false) :
    (v.handle cfg isIn c e a).g.heap.size ≤ v.g.heap.size + 1 := by
  have hle := size_le_of_live ht ((handle_retimed hs h c).tracks ht) hr hr' _ fun x hx =>
    (handle_live hs h c x).mp hx
  have hone : (v.left cfg a isIn e).r.uc.toFinset.card ≤ 1 := by
    cases (v.left cfg a isIn e).r.uc <;> simp
  omega

/-- One of the two `if`s of the loop's body. -/
theorem serve_size (hs : v.Sound) (ht : v.g.Tracks) {c : Clock}
    (hruns : v.runs cfg l = if v.g.heap.isExpired cfg.timeout c.check a then none else some (a, isIn, e))
    (hr : v.g.refused = false) (hr' : (v.serve cfg isIn c e a).g.refused = false) :
    (v.serve cfg isIn c e a).g.heap.size ≤ v.g.heap.size + 1 := by
  unfold serve at hr' ⊢
  split_ifs at hruns hr' ⊢
  · exact Nat.le_succ _
  · exact handle_size hs ht hruns c hr hr'

/-- A round of the sweep closes a connection, or is the last one. -/
theorem sweepRound_work (hs : v.Sound) (ht : v.g.Tracks) (hr : v.g.refused = false)
    (hbatch : v.batch = some []) (now : ℤ) : 1 + (v.sweepRound cfg now).work ≤ v.work := by
  obtain ⟨hi, helem⟩ := ht hr
  unfold work
  rw [hbatch]
  unfold sweepRound
  dsimp only
  split_ifs with hdue hroot
  · obtain ⟨v₁, hclose, hun⟩ := closeConnection_unregistered hs.wired ht hr hroot
    have hclosed := closeConnection_closed hs.wired hroot hclose
    rw [hclose]
    have hsize := hun.size
    show 1 + (batchWork v₁.batch + v₁.g.heap.size) ≤ _
    rw [hclosed.batch, hbatch]
    omega
  · exact absurd ((helem _).mp ⟨1, le_rfl, hdue.1, rfl⟩) hroot
  · simp [batchWork]

/-- **One step**: every step but `epoll_wait` and `accept` takes away from the work. -/
theorem step_work (hs : v.Sound) (ht : v.g.Tracks) (h : v.step cfg l = some v')
    (hr' : v'.g.refused = false) : 1 + v'.work ≤ v.work + l.work := by
  have hr := step_refused hs h hr'
  obtain ⟨-, hnext⟩ := Option.ite_none_right_eq_some.mp h
  unfold next at hnext
  split at hnext
  · rename_i items hv
    obtain ⟨-, hnext⟩ := Option.ite_none_right_eq_some.mp hnext
    cases hnext
    simp only [work, hv, batchWork, Label.work]
    omega
  · rename_i o rest hv
    cases hnext
    have hsize := openConnection_size hs ht o hr hr'
    simp only [work, (openConnection_spec hs.wired o).batch, hv, Label.work]
    omega
  · rename_i rest hv
    cases hnext
    simp [work, hv, batchWork, Item.work, Label.work]
    omega
  · rename_i c e a out rest hv
    cases hnext
    have hruns : v.runs cfg (.serveIn c e) =
        if v.g.heap.isExpired cfg.timeout c.check a then none else some (a, true, e) := by
      unfold runs
      rw [hv]
    have hsize := serve_size hs ht hruns hr hr'
    simp only [work, hv, batchWork, Item.work, Label.work, List.map_cons, List.sum_cons, if_true,
      Bool.false_eq_true, if_false]
    omega
  · rename_i c e a rest hv
    cases hnext
    have hruns : v.runs cfg (.serveOut c e) =
        if v.g.heap.isExpired cfg.timeout c.check a then none else some (a, false, e) := by
      unfold runs
      rw [hv]
    have hsize := serve_size hs ht hruns hr hr'
    simp only [work, hv, batchWork, Item.work, Label.work, List.map_cons, List.sum_cons, if_true,
      Bool.false_eq_true, if_false]
    omega
  · rename_i c e a rest hv
    cases hnext
    simp [work, hv, batchWork, Item.work, Label.work]
    omega
  · rename_i now hv
    cases hnext
    exact sweepRound_work hs ht hr hv now
  · cases hnext

/-! ### Runs -/

/-- The steps of a run are paid for by the work there was, and by what the steps bring in. -/
theorem exec_work {ls : List Label} (hs : v.Sound) (ht : v.g.Tracks)
    (h : exec (step cfg) v ls = some v') (hr : v'.g.refused = false) :
    v.g.refused = false ∧ ls.length + v'.work ≤ v.work + (ls.map Label.work).sum := by
  induction ls generalizing v with
  | nil =>
      cases h
      exact ⟨hr, by simp⟩
  | cons l ls ih =>
      obtain ⟨v₁, hstep, hrest⟩ := Option.bind_eq_some_iff.mp h
      obtain ⟨hr₁, hle⟩ := ih (hs.step hstep) (step_tracks hs ht hstep) hrest
      have hone := step_work hs ht hstep hr₁
      refine ⟨step_refused hs hstep hr₁, ?_⟩
      simp only [List.length_cons, List.map_cons, List.sum_cons]
      omega

end Server

/-- What the kernel and the clock answer to a step: `accept` a connection, or that there is none
left. -/
structure Turn where
  clock : Clock
  env : Env
  now : ℤ
  accept : Option Opening

namespace Server

variable {cfg : Config} {v v' : Server} {x : Turn}

/-- The step that serves what is next, while the worker is away from `epoll_wait`. -/
def due (v : Server) (x : Turn) : Option Label :=
  match v.batch with
  | none => none
  | some [] => some (.sweep x.now)
  | some (.listener :: _) => some (x.accept.elim .accepted .accept)
  | some (.conn _ true _ :: _) => some (.serveIn x.clock x.env)
  | some (.conn _ false _ :: _) => some (.serveOut x.clock x.env)

/-- The worker takes its next step, if it lives and is away from `epoll_wait`. -/
def turn (cfg : Config) (v : Server) (x : Turn) : Server := ((v.due x).bind (v.step cfg)).getD v

/-- The worker behind a turn for each answer. -/
def turns (cfg : Config) (xs : List Turn) (v : Server) : Server := xs.foldl (turn cfg) v

/-- `accept` answers a connection. -/
def accepts (v : Server) (x : Turn) : Bool :=
  match v.due x with
  | some (.accept _) => true
  | _ => false

/-- The connections that `accept` answers in the turns. -/
def accepted (cfg : Config) : List Turn → Server → ℕ
  | [], _ => 0
  | x :: xs, v => (if v.accepts x then 1 else 0) + accepted cfg xs (v.turn cfg x)

/-- Away from `epoll_wait` a worker that lives has a next step, which brings in no more than a
connection that `accept` answers. -/
theorem turn_step (hlive : v.dead = none) (hbatch : v.batch ≠ none) (x : Turn) :
    ∃ l, l.work = 2 * (if v.accepts x then 1 else 0) ∧ v.step cfg l = some (v.turn cfg x) := by
  have hnext : ∃ l v', v.due x = some l ∧ l.work = 2 * (if v.accepts x then 1 else 0) ∧
      v.next cfg l = some v' := by
    obtain ⟨clock, env, now, accept⟩ := x
    unfold accepts due next
    match hv : v.batch with
    | none => exact absurd hv hbatch
    | some [] => exact ⟨_, _, rfl, rfl, rfl⟩
    | some (.listener :: _) => cases accept <;> exact ⟨_, _, rfl, rfl, rfl⟩
    | some (.conn _ true _ :: _) => exact ⟨_, _, rfl, rfl, rfl⟩
    | some (.conn _ false true :: _) => exact ⟨_, _, rfl, rfl, rfl⟩
    | some (.conn _ false false :: _) => exact ⟨_, _, rfl, rfl, rfl⟩
  obtain ⟨l, v', hdue, hwork, hnext⟩ := hnext
  have hstep : v.step cfg l = some v' := (if_pos hlive).trans hnext
  refine ⟨l, hwork, ?_⟩
  rw [turn, hdue, Option.bind_some, hstep]
  rfl

/-- A worker in `epoll_wait` waits for it to return, and a dead one stays dead. -/
theorem turn_stop (h : v.dead ≠ none ∨ v.batch = none) (x : Turn) : v.turn cfg x = v := by
  rcases h with h | h
  · have hnone : ∀ l, v.step cfg l = none := fun l => if_neg h
    unfold turn
    cases v.due x with
    | none => rfl
    | some l =>
        rw [Option.bind_some, hnone]
        rfl
  · have hdue : v.due x = none := by
      unfold due
      rw [h]
    rw [turn, hdue]
    rfl

theorem turns_stop (h : v.dead ≠ none ∨ v.batch = none) (xs : List Turn) : v.turns cfg xs = v := by
  induction xs with
  | nil => rfl
  | cons x xs ih =>
      show (v.turn cfg x).turns cfg xs = v
      rw [turn_stop h, ih]

/-- Turns, until the worker is back, are paid for by the work there was and the connections that
`accept` answered. -/
theorem turns_work (hs : v.Sound) (ht : v.g.Tracks) (xs : List Turn)
    (hlive : (v.turns cfg xs).dead = none) (hbatch : (v.turns cfg xs).batch ≠ none)
    (hr : (v.turns cfg xs).g.refused = false) :
    v.g.refused = false ∧ xs.length + (v.turns cfg xs).work ≤ v.work + 2 * accepted cfg xs v := by
  induction xs generalizing v with
  | nil => exact ⟨hr, by simp [turns, accepted]⟩
  | cons x xs ih =>
      have hcons : v.turns cfg (x :: xs) = (v.turn cfg x).turns cfg xs := rfl
      by_cases hstop : v.dead ≠ none ∨ v.batch = none
      · -- it would still be where it was
        rw [turns_stop hstop] at hlive hbatch
        exact absurd hstop (by simp [hlive, hbatch])
      · rw [not_or, not_not] at hstop
        obtain ⟨l, hwork, hstep⟩ := turn_step hstop.1 hstop.2 x
        rw [hcons] at hlive hbatch hr ⊢
        obtain ⟨hr₁, hle⟩ := ih (hs.step hstep) (step_tracks hs ht hstep) hlive hbatch hr
        have hone := step_work hs ht hstep hr₁
        refine ⟨step_refused hs hstep hr₁, ?_⟩
        rw [List.length_cons, accepted]
        omega

end Server

/-- **The worker returns to `epoll_wait`.**  The steps of a run are paid for by the work there was
and by what `epoll_wait` and `accept` brought.  A worker that is away from `epoll_wait` is back after
as many turns as there is work, and two more for each connection that `accept` answered in them,
unless it died or had no room for a connection. -/
theorem worker_returns {cfg : Config} {good : Server → Label → Prop} {v : Server}
    (h : Server.Reached cfg good v) :
    (∀ ls v', exec (Server.step cfg) v ls = some v' → v'.g.refused = false →
      ls.length + v'.work ≤ v.work + (ls.map Label.work).sum) ∧
    ∀ xs : List Turn, v.work + 2 * Server.accepted cfg xs v ≤ xs.length →
      (v.turns cfg xs).batch = none ∨ (v.turns cfg xs).dead ≠ none ∨
        (v.turns cfg xs).g.refused = true := by
  refine ⟨fun ls v' hexec hr => (Server.exec_work h.sound h.tracks hexec hr).2, fun xs hlen => ?_⟩
  by_contra hnot
  rw [not_or, not_or, not_not, Bool.not_eq_true] at hnot
  obtain ⟨hbatch, hlive, hr⟩ := hnot
  obtain ⟨-, hle⟩ := Server.turns_work h.sound h.tracks xs hlive hbatch hr
  -- nothing is left, but the sweep is still to come
  obtain ⟨items, hitems⟩ := Option.ne_none_iff_exists'.mp hbatch
  have hpos : 0 < batchWork (v.turns cfg xs).batch := by
    rw [hitems]
    exact Nat.succ_pos _
  have hwork : batchWork (v.turns cfg xs).batch ≤ (v.turns cfg xs).work := Nat.le_add_right _ _
  omega

/-- The two events of a connection, and a listener with two more connections. -/
def reportedTurns : List Turn :=
  [⟨.at 0, idleEnv, 0, none⟩, ⟨.at 0, idleEnv, 0, none⟩, ⟨.at 0, idleEnv, 0, some ⟨6, true, 0⟩⟩,
    ⟨.at 0, idleEnv, 0, some ⟨7, true, 0⟩⟩] ++ List.replicate 6 ⟨.at 0, idleEnv, 0, none⟩

/-- Six turns for what was reported, and four for the two connections that `accept` answers. -/
theorem worker_returns_reported :
    ∃ v, exec (Server.step (serverConfig 60 [])) Server.boot
        (Server.opened ++ [.poll [.conn 0 true false, .listener]]) = some v ∧ v.work = 6 ∧
      Server.accepted (serverConfig 60 []) reportedTurns v = 2 ∧
      (v.turns (serverConfig 60 []) reportedTurns).g.heap.size = 3 ∧
      (v.turns (serverConfig 60 []) reportedTurns).batch = none := by
  have hrun : (exec (Server.step (serverConfig 60 [])) Server.boot
      (Server.opened ++ [.poll [.conn 0 true false, .listener]])).any (fun v =>
        decide (v.work = 6 ∧ Server.accepted (serverConfig 60 []) reportedTurns v = 2 ∧
          (v.turns (serverConfig 60 []) reportedTurns).g.heap.size = 3 ∧
          (v.turns (serverConfig 60 []) reportedTurns).dead = none ∧
          (v.turns (serverConfig 60 []) reportedTurns).g.refused = false)) = true := by
    decide +kernel
  obtain ⟨v, hv, hend⟩ := exists_of_any hrun
  obtain ⟨hwork, haccepted, hsize, hlive, hr⟩ := of_decide_eq_true hend
  have hreach : Server.Reached (serverConfig 60 []) (fun _ _ => True) v :=
    Reach.exec (.start Server.boot_init) (along_true _ _) hv
  refine ⟨v, hv, hwork, haccepted, hsize, ?_⟩
  rcases (worker_returns hreach).2 reportedTurns (by rw [hwork, haccepted]; decide) with h | h | h
  · exact h
  · exact absurd hlive h
  · exact absurd (hr.symm.trans h) (by simp)

end SyServer
