import SyServer.Events

/-! # The worker

The event loop of `main`, `sy_open_connection`, `sy_close_connection`, and the three functions of
`connection.c` on the times of a connection and of its upstream.

A worker is its memory (the connections and the requests, by address), the two pools, the timeout
heap, and the entries of `events[]` that are still to be served.  A step is one `epoll_wait`, one
answer of `accept`, one of the two `if`s of the loop's body, or one round of the loop in
`sy_connection_sweep`; it carries what the kernel and the clock answer.

`Server.event` says which step of which session a step of the worker is, and `Server.Meets` turns
a condition on the steps of a session into one on the steps of the worker. -/

namespace SyServer

open Transition (Reach)

/-! ### The worker's memory -/

/-- An entry of `events[]`: the listener, or a connection with its `EPOLLIN` and `EPOLLOUT`. -/
inductive Item where
  | listener
  | conn (a : ConnAddr) (in_ out : Bool)
deriving DecidableEq, Repr

/-- The connection of an entry. -/
def Item.addr : Item → Option ConnAddr
  | listener => none
  | conn a _ _ => some a

/-- The memory of a worker.  `batch` is `none` in `epoll_wait`, else what is left of `events[]`;
behind the last entry the worker sweeps.  `now` is the last clock reading, `log` what was done for
each request since it was initialised, and `condemned` the open connections that
`sy_connection_expire` was applied to. -/
structure Server where
  conns : ConnAddr → Connection
  reqs : ReqAddr → Request
  reqPool : Pool
  g : Shared
  batch : Option (List Item)
  now : ℤ
  log : ReqAddr → List Action
  condemned : List ConnAddr
  dead : Option Fault

namespace Server

/-- The connection is open. -/
def Live (v : Server) (a : ConnAddr) : Prop := v.g.pool.Live a

instance (v : Server) (a : ConnAddr) : Decidable (v.Live a) := inferInstanceAs (Decidable (_ ∧ _))

/-- The session of the request at `q`. -/
def session (v : Server) (q : ReqAddr) : Session where
  self := q
  r := v.reqs q
  c := v.conns (v.reqs q).c
  u := match (v.reqs q).uc with
    | some u => v.conns u
    | none => .unset
  g := v.g
  log := v.log q

/-- The memory with a session written back. -/
def store (v : Server) (s : Session) : Server :=
  let conns := Function.update v.conns s.r.c s.c
  { v with
    conns := match s.r.uc with
      | some u => Function.update conns u s.u
      | none => conns
    reqs := Function.update v.reqs s.self s.r
    g := s.g
    log := Function.update v.log s.self s.log }

/-! ### Opening and closing -/

/-- `sy_close_connection` on an upstream connection. -/
def closeBack (v : Server) (a : ConnAddr) : Except Fault Server := do
  let g ← v.g.closeBack a (v.conns a).fd
  let q := (v.conns a).r
  pure { v with
    g := g
    reqs := Function.update v.reqs q { v.reqs q with uc := none }
    condemned := v.condemned.filter (· ≠ a) }

/-- `if (c->r->uc) sy_close_connection(c->r->uc);` -/
def closeUpstream (v : Server) (q : ReqAddr) : Except Fault Server :=
  match (v.reqs q).uc with
  | some u => v.closeBack u
  | none => .ok v

/-- `sy_close_connection` on a front connection. -/
def closeFront (v : Server) (a : ConnAddr) : Except Fault Server := do
  let heap ← v.g.heap.unregister a
  let v := { v with g := { v.g with heap := heap }.closeFd (v.conns a).fd }
  let q := (v.conns a).r
  let v ← v.closeUpstream q
  pure { v with
    reqPool := v.reqPool.release q
    g := { v.g with pool := v.g.pool.release a }
    condemned := v.condemned.filter (· ≠ a) }

/-- `sy_close_connection`. -/
def closeConnection (v : Server) (a : ConnAddr) : Except Fault Server :=
  match (v.conns a).side with
  | .front => v.closeFront a
  | .back => v.closeBack a

/-- A failed assertion ends the worker. -/
def settled (v : Server) : Except Fault Server → Server
  | .ok v' => v'
  | .error f => { v with dead := some f }

end Server

/-- One connection that `accept` answers: its descriptor, whether `epoll_ctl` takes it, and the
time. -/
structure Opening where
  fd : ℕ
  epoll : Bool
  now : ℤ
deriving DecidableEq, Repr

namespace Server

/-- The connection and the request that `sy_open_connection` sets up for a descriptor of `accept`. -/
def setUp (v : Server) (o : Opening) : ConnAddr × Server :=
  let (a, pool) := v.g.pool.alloc
  let (q, reqPool) := v.reqPool.alloc
  (a, { v with
    conns := Function.update v.conns a ⟨o.fd, .front, true, false, q⟩
    reqs := Function.update v.reqs q (requestInit (v.reqs q) a)
    reqPool := reqPool
    g := { v.g with pool := pool, heap := v.g.heap.setTime a o.now }.openFd o.fd
    log := Function.update v.log q []
    now := o.now })

/-- `sy_open_connection`. -/
def openConnection (v : Server) (o : Opening) : Server :=
  let (a, v) := v.setUp o
  match v.g.heap.register a with
  | (false, _) =>
      let v := { v with g := { v.g with refused := true } }
      v.settled (v.closeConnection a)
  | (true, heap) =>
      let v := { v with g := { v.g with heap := heap } }
      if o.epoll then v else v.settled (v.closeConnection a)

/-! ### Times -/

/-- `c->r->uc` of a front connection. -/
def upstreamOf (v : Server) (a : ConnAddr) : Option ConnAddr :=
  match (v.conns a).side with
  | .front => (v.reqs (v.conns a).r).uc
  | .back => none

end Server

/-- The clock around a handler: at `sy_connection_is_expired`, and in `sy_connection_activate` or
`sy_connection_expire` for the connection and for its upstream. -/
structure Clock where
  check : ℤ
  touch : ℤ
  touchBack : ℤ
deriving DecidableEq, Repr

namespace Server

/-- `sy_connection_activate`. -/
def activate (v : Server) (t : Clock) (a : ConnAddr) : Server :=
  let heap := v.g.heap.activate t.touch a
  let heap := match v.upstreamOf a with
    | some u => heap.activate t.touchBack u
    | none => heap
  { v with g := { v.g with heap := heap } }

/-- `sy_connection_expire`. -/
def expire (v : Server) (timeout : ℤ) (t : Clock) (a : ConnAddr) : Server :=
  let heap := v.g.heap.expire timeout t.touch a
  let heap := match v.upstreamOf a with
    | some u => heap.expire timeout t.touchBack u
    | none => heap
  { v with
    g := { v.g with heap := heap }
    condemned := a :: (v.upstreamOf a).toList ++ v.condemned }

/-! ### The event loop -/

/-- The handler for an event of a connection on this side. -/
def handler (cfg : Config) (e : Env) (s : Session) (isIn : Bool) :
    Side → Except Fault Rc × Session
  | .front => if isIn then handleRequest cfg e s else settle s (handleResponse e s)
  | .back => if isIn then settle s (handleUpstream e s) else settle s (handlePass e s)

/-- `err == ERROR ? sy_connection_expire(c) : sy_connection_activate(c);` -/
def finish (v : Server) (cfg : Config) (t : Clock) (a : ConnAddr) : Except Fault Rc → Server
  | .error f => { v with dead := some f }
  | .ok .error => v.expire cfg.timeout t a
  | .ok _ => v.activate t a

/-- The handler runs, and the times are set. -/
def handle (v : Server) (cfg : Config) (isIn : Bool) (t : Clock) (e : Env) (a : ConnAddr) : Server :=
  let (err, s) := handler cfg e (v.session (v.conns a).r) isIn (v.conns a).side
  { (v.store s).finish cfg t a err with now := t.touchBack }

/-- One of the two `if`s of the loop's body, for an event that is set. -/
def serve (v : Server) (cfg : Config) (isIn : Bool) (t : Clock) (e : Env) (a : ConnAddr) : Server :=
  if v.g.heap.isExpired cfg.timeout t.check a then { v with now := t.check }
  else v.handle cfg isIn t e a

/-- What `epoll_wait` can report of one file. -/
def Reported (v : Server) : Item → Prop
  | .listener => True
  | .conn a in_ out =>
      v.Live a ∧ (in_ = true → (v.conns a).evIn = true) ∧ (out = true → (v.conns a).evOut = true)

instance (v : Server) : DecidablePred v.Reported
  | .listener => .isTrue trivial
  | .conn _ _ _ => inferInstanceAs (Decidable (_ ∧ _ ∧ _))

/-- What `epoll_wait` can report: open connections, each once, with events they wait for. -/
def Reportable (v : Server) (items : List Item) : Prop :=
  (∀ i ∈ items, v.Reported i) ∧ (items.filterMap Item.addr).Nodup

instance (v : Server) (items : List Item) : Decidable (v.Reportable items) :=
  inferInstanceAs (Decidable (_ ∧ _))

/-- One round of `sy_connection_sweep`. -/
def sweepRound (v : Server) (cfg : Config) (now : ℤ) : Server :=
  let a := v.g.heap.conns 1
  if v.g.heap.size > 0 ∧ now ≥ v.g.heap.time a + cfg.timeout then
    if v.Live a then { v.settled (v.closeConnection a) with now := now }
    else { v with dead := some .useAfterFree }
  else { v with batch := none, now := now }

end Server

/-- A step of the worker: `epoll_wait` reports `items`; `accept` answers a connection, or that
there is none left; the first or the second `if` of the loop's body; a round of the sweep. -/
inductive Label where
  | poll (items : List Item)
  | accept (o : Opening)
  | accepted
  | serveIn (t : Clock) (e : Env)
  | serveOut (t : Clock) (e : Env)
  | sweep (now : ℤ)

namespace Server

/-- The step of a worker that is alive. -/
def next (cfg : Config) (v : Server) (l : Label) : Option Server :=
  match l, v.batch with
  | .poll items, none => if v.Reportable items then some { v with batch := some items } else none
  | .accept o, some (.listener :: _) => some (v.openConnection o)
  | .accepted, some (.listener :: rest) => some { v with batch := some rest }
  | .serveIn t e, some (.conn a true out :: rest) =>
      some { v.serve cfg true t e a with batch := some (.conn a false out :: rest) }
  | .serveOut t e, some (.conn a false true :: rest) =>
      some { v.serve cfg false t e a with batch := some rest }
  | .serveOut _ _, some (.conn _ false false :: rest) => some { v with batch := some rest }
  | .sweep now, some [] => some (v.sweepRound cfg now)
  | _, _ => none

/-- One step of the worker. -/
def step (cfg : Config) (v : Server) (l : Label) : Option Server :=
  if v.dead = none then v.next cfg l else none

/-- The worker behind `sy_server_init`: nothing is handed out, registered or open.  The memory holds
anything. -/
structure Init (v : Server) : Prop where
  pool : v.g.pool.Ok
  reqPool : v.reqPool.Ok
  closed : ∀ a, ¬ v.Live a
  unrequested : ∀ q, ¬ v.reqPool.Live q
  heap : v.g.heap.size = 0
  refused : v.g.refused = false
  fds : v.g.fds = []
  batch : v.batch = none
  condemned : v.condemned = []
  dead : v.dead = none

/-- The states of a worker reached by steps that meet a condition. -/
abbrev Reached (cfg : Config) (good : Server → Label → Prop) : Server → Prop :=
  Reach Server.Init (Server.step cfg) good

/-! ### The sessions of a worker -/

/-- An open front connection. -/
def Front (v : Server) (a : ConnAddr) : Prop := v.Live a ∧ (v.conns a).side = .front

instance (v : Server) (a : ConnAddr) : Decidable (v.Front a) := inferInstanceAs (Decidable (_ ∧ _))

/-- An `EPOLLIN` of the connection is still to be served. -/
def pend (v : Server) (a : ConnAddr) : Bool :=
  (v.batch.getD []).any fun i => i = .conn a true false ∨ i = .conn a true true

/-- The session of a front connection. -/
def view (v : Server) (a : ConnAddr) : View := ⟨v.pend a, v.session (v.conns a).r⟩

/-- The connection whose handler a step runs, and for which event. -/
def runs (cfg : Config) (v : Server) (l : Label) : Option (ConnAddr × Bool × Env) :=
  match l, v.batch with
  | .serveIn t e, some (.conn a true _ :: _) =>
      if v.g.heap.isExpired cfg.timeout t.check a then none else some (a, true, e)
  | .serveOut t e, some (.conn a false true :: _) =>
      if v.g.heap.isExpired cfg.timeout t.check a then none else some (a, false, e)
  | _, _ => none

/-- The upstream connection that a round of the sweep closes on its own. -/
def sweeps (cfg : Config) (v : Server) (l : Label) : Option ConnAddr :=
  match l, v.batch with
  | .sweep now, some [] =>
      let a := v.g.heap.conns 1
      if (v.g.heap.size > 0 ∧ now ≥ v.g.heap.time a + cfg.timeout) ∧ v.Live a ∧
        (v.conns a).side = .back then some a else none
  | _, _ => none

/-- The front connection behind a connection. -/
def frontOf (v : Server) (a : ConnAddr) : ConnAddr :=
  match (v.conns a).side with
  | .front => a
  | .back => (v.reqs (v.conns a).r).c

/-- The event of a session that a handler on this side serves. -/
def eventOf (isIn : Bool) (e : Env) : Side → SessionEvent
  | .front => if isIn then .request e else .response e
  | .back => if isIn then .upstream e else .pass e

/-- The step of a session that a step of the worker is, next to changes of the shared data, and
the front connection of that session. -/
def event (cfg : Config) (v : Server) (l : Label) : Option (ConnAddr × SessionEvent) :=
  match v.runs cfg l with
  | some (a, isIn, e) => some (v.frontOf a, eventOf isIn e (v.conns a).side)
  | none => (v.sweeps cfg l).map fun a => (v.frontOf a, .close)

theorem event_runs {cfg : Config} {v : Server} {l : Label} {a : ConnAddr} {isIn : Bool} {e : Env}
    (h : v.runs cfg l = some (a, isIn, e)) :
    v.event cfg l = some (v.frontOf a, eventOf isIn e (v.conns a).side) := by
  unfold event
  rw [h]

theorem event_sweeps {cfg : Config} {v : Server} {now : ℤ} {a : ConnAddr}
    (h : v.sweeps cfg (.sweep now) = some a) :
    v.event cfg (.sweep now) = some (v.frontOf a, .close) := by
  unfold event
  rw [h]
  rfl

/-- The step meets a condition on the steps of sessions. -/
def Meets (cfg : Config) (good : View → SessionEvent → Prop) (v : Server) (l : Label) : Prop :=
  ∀ x ∈ v.event cfg l, good (v.view x.1) x.2

instance (cfg : Config) (good : View → SessionEvent → Prop) [∀ w ev, Decidable (good w ev)]
    (v : Server) (l : Label) : Decidable (Meets cfg good v l) :=
  match h : v.event cfg l with
  | none => .isTrue fun x hx => by rw [h] at hx; cases hx
  | some x => decidable_of_iff (good (v.view x.1) x.2)
      ⟨fun hg y hy => by rw [h] at hy; cases hy; exact hg, fun hall => hall x h⟩

/-! ### Something to run -/

/-- A worker whose memory is zeroed. -/
def boot : Server where
  conns := fun _ => .unset
  reqs := fun _ => .zeroed
  reqPool := ⟨[], 0⟩
  g := ⟨⟨[], 0⟩, .empty, false, []⟩
  batch := none
  now := 0
  log := fun _ => []
  condemned := []
  dead := none

theorem boot_init : boot.Init :=
  ⟨⟨List.nodup_nil, fun a h => by cases h⟩, ⟨List.nodup_nil, fun a h => by cases h⟩,
    fun a h => absurd h.1 (Nat.not_lt_zero a), fun q h => absurd h.1 (Nat.not_lt_zero q), rfl, rfl,
    rfl, rfl, rfl, rfl⟩

/-- A round of the event loop at one second. -/
def round (now : ℤ) (items : List Item) (ls : List Label) : List Label :=
  .poll items :: ls ++ [.sweep now]

/-- The first connection of a worker is accepted. -/
def opened : List Label := round 0 [.listener] [.accept ⟨5, true, 0⟩, .accepted]

end Server

/-- A kernel that answers `EAGAIN` to everything, and lets an upstream be opened. -/
def idleEnv : Env where
  recvs := []
  sends := []
  files := []
  date := []
  upstream := ⟨7, true, true, true, 0⟩
  resource := fun _ => .missing

/-- One second of the clock. -/
def Clock.at (now : ℤ) : Clock := ⟨now, now, now⟩

namespace Server

/-- A round of the event loop with one event of one connection. -/
def single (now : ℤ) (a : ConnAddr) (isIn : Bool) (e : Env) : List Label :=
  round now [.conn a isIn (!isIn)]
    ((if isIn then [.serveIn (.at now) { e with upstream := { e.upstream with now := now } }] else []) ++
      [.serveOut (.at now) e])

end Server

end SyServer
