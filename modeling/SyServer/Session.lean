import SyServer.Heap
import SyServer.Lib.Ledger

/-! # Sessions: one request, its two connections, and what they share

A handler works on one `sy_request_t`, on the front connection `r->c` and, if there is one, on
the upstream connection `r->uc`; besides these it touches the pool of connections and the timeout
heap.  `Session` is that much of the worker's memory, with the connections behind the two
pointers, and the handlers of `Handlers.lean` pass it on.

What the kernel answers during one call is an `Env`: the results of the successive `recv`, `send`
and `sendfile` calls, of `openat` and `fstat`, of opening an upstream, and the date.

The `log` records what the call did, newest action first; no handler reads it. -/

namespace SyServer

/-! ### Pools -/

/-- `sy_pool_t`: the free list from `cur` on, and the address of the next chunk. -/
structure Pool where
  free : List ℕ
  next : ℕ
deriving DecidableEq, Repr

/-- The `chunk_size` both pools are initialised with. -/
def CHUNK_SIZE : ℕ := 8

/-- `sy_pool_alloc`: a new chunk is allocated when the free list is empty. -/
def Pool.alloc (p : Pool) : ℕ × Pool :=
  match p.free with
  | a :: free => (a, { p with free := free })
  | [] => (p.next, ⟨(List.range (CHUNK_SIZE - 1)).map (p.next + 1 + ·), p.next + CHUNK_SIZE⟩)

/-- `sy_pool_free`. -/
def Pool.release (p : Pool) (a : ℕ) : Pool := { p with free := a :: p.free }

/-- The address is handed out. -/
def Pool.Live (p : Pool) (a : ℕ) : Prop := a < p.next ∧ a ∉ p.free

instance (p : Pool) (a : ℕ) : Decidable (p.Live a) := inferInstanceAs (Decidable (_ ∧ _))

/-- No address is on the free list twice, and none is behind the last chunk. -/
structure Pool.Ok (p : Pool) : Prop where
  nodup : p.free.Nodup
  lt : ∀ a ∈ p.free, a < p.next

/-- A new address, and nothing else, is handed out. -/
theorem Pool.alloc_spec {p q : Pool} {a : ℕ} (hp : p.Ok) (h : p.alloc = (a, q)) :
    q.Ok ∧ ¬ p.Live a ∧ ∀ x, q.Live x ↔ x = a ∨ p.Live x := by
  obtain ⟨hn, hlt⟩ := hp
  unfold alloc at h
  unfold Live
  cases hf : p.free with
  | cons b free =>
      rw [hf] at h hn hlt
      cases h
      obtain ⟨hb, hn⟩ := List.nodup_cons.mp hn
      have hba := hlt a List.mem_cons_self
      refine ⟨⟨hn, fun x hx => hlt x (List.mem_cons_of_mem _ hx)⟩, fun hl => ?_, fun x => ?_⟩
      · exact hl.2 List.mem_cons_self
      · rw [List.mem_cons, not_or]
        by_cases hx : x = a
        · simp [hx, hb, hba]
        · simp [hx]
  | nil =>
      rw [hf] at h
      cases h
      refine ⟨⟨?_, fun x hx => ?_⟩, fun hl => lt_irrefl _ hl.1, fun x => ?_⟩
      · exact List.nodup_range.map fun i j e => by omega
      · obtain ⟨i, hi, rfl⟩ := List.mem_map.mp hx
        have := List.mem_range.mp hi
        show p.next + 1 + i < p.next + CHUNK_SIZE
        omega
      · have hmem : x ∈ (List.range (CHUNK_SIZE - 1)).map (p.next + 1 + ·) ↔
            p.next < x ∧ x < p.next + CHUNK_SIZE := by
          rw [List.mem_map]
          refine ⟨fun ⟨i, hi, e⟩ => ?_, fun ⟨h1, h2⟩ => ⟨x - p.next - 1, ?_, ?_⟩⟩
          · have := List.mem_range.mp hi
            have e : p.next + 1 + i = x := e
            omega
          · exact List.mem_range.mpr (by omega)
          · show p.next + 1 + (x - p.next - 1) = x
            omega
        have hpos : 0 < CHUNK_SIZE := by decide
        show x < p.next + CHUNK_SIZE ∧ _ ↔ _
        rw [hmem]
        simp only [List.not_mem_nil, not_false_eq_true, and_true]
        omega

/-- An address that was handed out, and nothing else, is given back. -/
theorem Pool.release_spec {p : Pool} {a : ℕ} (hp : p.Ok) (ha : p.Live a) :
    (p.release a).Ok ∧ ∀ x, (p.release a).Live x ↔ p.Live x ∧ x ≠ a := by
  refine ⟨⟨List.nodup_cons.mpr ⟨ha.2, hp.nodup⟩, fun x hx => ?_⟩, fun x => ?_⟩
  · rcases List.mem_cons.mp hx with rfl | hx
    · exact ha.1
    · exact hp.lt x hx
  · show x < p.next ∧ x ∉ a :: p.free ↔ (x < p.next ∧ x ∉ p.free) ∧ x ≠ a
    rw [List.mem_cons, not_or]
    tauto

/-! ### What a call can meet -/

/-- One result of `sendfile`: a number of bytes, `EAGAIN`, or an error. -/
inductive FileResult where
  | sent (n : ℕ)
  | eagain
  | err
deriving DecidableEq, Repr

/-- `openat` of the requested path, `fstat`, and for a directory `openat` of `index.html`, before the
directory is closed. -/
inductive Resource where
  | missing
  | file (fd : ℕ) (size : ℤ)
  | directory (fd : ℕ) (index : Option (ℕ × ℤ))
deriving DecidableEq, Repr

/-- Opening an upstream: the socket, `inet_pton`, `connect`, `epoll_ctl`, and the clock. -/
structure Upstream where
  fd : ℕ
  pton : Bool
  connect : Bool
  epoll : Bool
  now : ℤ
deriving DecidableEq, Repr

/-- What the kernel answers during one call of a handler. -/
structure Env where
  recvs : List RecvResult
  sends : List SendResult
  files : List FileResult
  date : List UInt8
  upstream : Upstream
  resource : List UInt8 → Resource

/-- `server_cfg`, and the lookups in `header_map`. -/
structure Config where
  timeout : ℤ
  locations : List Location
  headerGet : Mem → Str → Option HeaderVal

/-! ### Sessions -/

/-- What goes out to the client: bytes of `sb`, or a number of bytes of the file. -/
inductive Output where
  | buffer (d : List UInt8)
  | file (n : ℕ)
deriving DecidableEq, Repr

/-- What a handler does, as an observer of the sockets and of the calls sees it. -/
inductive Action where
  | received (d : List UInt8)
  | forwarded (d : List UInt8)
  | relayed (d : List UInt8)
  | delivered (o : Output)
  | built (d : List UInt8)
  | page (status : ℕ) (d : List UInt8)
  | matched (pass : Bool)
  | called (h : InHandler) (state : PState)
  | headersEnd (begin : ℕ)
  | cleared (bodyDone : Bool)
deriving DecidableEq, Repr

/-- The pool of connections and the timeout heap.  `refused` records that
`sy_connection_register` has answered `-1`, and `fds` which descriptors were opened by `accept`,
`socket` and `openat` and closed again. -/
structure Shared where
  pool : Pool
  heap : Heap
  refused : Bool
  fds : List (Ledger.Entry ℕ)

namespace Shared

/-- The kernel answers a descriptor. -/
def openFd (g : Shared) (fd : ℕ) : Shared := { g with fds := .opened fd :: g.fds }

/-- `close(fd)`. -/
def closeFd (g : Shared) (fd : ℕ) : Shared := { g with fds := .closed fd :: g.fds }

/-- `close(r->resource_fd)`, if there is one. -/
def closeFile (g : Shared) : Option ℕ → Shared
  | some fd => g.closeFd fd
  | none => g

theorem closeFile_fds (g : Shared) (fd : Option ℕ) :
    g.closeFile fd = { g with fds := (g.closeFile fd).fds } := by
  cases fd <;> rfl

end Shared

/-- The request at `self`, the connections behind `r->c` and `r->uc`, and the shared data.  `u`
means nothing while `r->uc` is `NULL`. -/
structure Session where
  self : ReqAddr
  r : Request
  c : Connection
  u : Connection
  g : Shared
  log : List Action

/-- What stands for the connection behind `r->uc` while that is `NULL`. -/
def Connection.unset : Connection := ⟨0, .back, false, false, 0⟩

/-- Record an action. -/
def Session.note (s : Session) (a : Action) : Session := { s with log := a :: s.log }

/-- `sy_connection_enable_out(r->uc)`. -/
def enableUpstreamOut (s : Session) : Except Fault Session :=
  if s.r.uc = none then .error .nullUpstream else .ok { s with u := enableOut s.u }

/-! ### Opening an upstream -/

/-- `sy_close_connection` on an upstream connection at `a` with the descriptor `fd`, without the
write to `r->uc`. -/
def Shared.closeBack (g : Shared) (a : ConnAddr) (fd : ℕ) : Except Fault Shared := do
  let heap ← g.heap.unregister a
  pure ({ g with pool := g.pool.release a, heap := heap }.closeFd fd)

/-- `sy_uwsgi_open_connection`: the connection, or `NULL`, and what it leaves in the session. -/
def uwsgiOpenConnection (e : Upstream) (pass : Bool) (s : Session) :
    Except Fault (Option ConnAddr × Session) :=
  if !pass then .error .passLocation
  else
  let s := { s with g := s.g.openFd e.fd }
  if !e.pton ∨ !e.connect then .ok (none, s)
  else
    let (a, pool) := s.g.pool.alloc
    let g : Shared := { s.g with pool := pool, heap := s.g.heap.setTime a e.now }
    let closed (g : Shared) : Except Fault (Option ConnAddr × Session) := do
      let g ← g.closeBack a e.fd
      pure (none, { s with g := g, r := { s.r with uc := none } })
    match g.heap.register a with
    | (false, _) => closed { g with refused := true }
    | (true, heap) =>
        let g := { g with heap := heap }
        if !e.epoll then closed g
        else .ok (some a, { s with g := g, u := ⟨e.fd, .back, true, false, s.self⟩ })

end SyServer
