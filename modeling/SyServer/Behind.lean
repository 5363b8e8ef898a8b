import SyServer.Chunks
import SyServer.Locations

/-! # Bytes behind the end of the read buffer

A handler reads the request through pointers, and often without a length.  What it reads ends in front of
the line feed that closed the line, and so bytes that arrive behind the end of the buffer change nothing:
a call on a buffer with more bytes ends in the same way, with these bytes behind its end.  Only a parser
that runs out of bytes goes on, from where it would have been called again.

* `parseCall_put`, `parseCall_resumes`: the parsers.
* `UriSeen`, `UriWithin`: what `sy_request_handle_uri` sees of the memory, and where its pointers stay.
* `requestHandleUri_varied`: this handler with other bytes behind the end of `rb`.
* `requestLoop_logged`: no handler looks at the log. -/

namespace SyServer

open Scan

/-! ### The parsers -/

section parsers

variable {ph : Phase} {r r' : Request} {rc : Rc}

/-- `b->begin = b->data + k`. -/
def beginAt (k : ℕ) (b : Buffer) : Buffer := { b with begin := k }

theorem transparent_beginAt (k i : ℕ) (b : Buffer) : Transparent (beginAt k) i b :=
  ⟨rfl, fun _ _ => rfl, fun _ => rfl⟩

/-- The loop of a parser over a buffer with more bytes. -/
theorem scan_put (ph : Phase) (d : List UInt8) {n i : ℕ} (h : i + n ≤ r.rb.end_) :
    scan ph.byte n i (r.mapRb (·.put d)) =
      (scan ph.byte n i r).map (.mapRb (·.put d)) (.mapRb (·.put d)) := by
  refine scan_map _ _ (fun q => q.rb.end_ = r.rb.end_) r.rb.end_ (fun j q q' hq hm => ?_)
    (fun j q hj hq => ph.byte_mapRb (transparent_put d (by omega))) rfl h
  have hcursors := ph.byte_cursors j q
  rw [hm] at hcursors
  exact hcursors.2.trans hq

theorem scan_beginAt (ph : Phase) (k n i : ℕ) (r : Request) :
    scan ph.byte n i (r.mapRb (beginAt k)) =
      (scan ph.byte n i r).map (.mapRb (beginAt k)) (.mapRb (beginAt k)) :=
  scan_map _ _ (fun _ => True) (i + n) (fun _ _ _ _ _ => trivial)
    (fun j q _ _ => ph.byte_mapRb (transparent_beginAt k j q.rb)) trivial le_rfl

theorem scan_end {n i : ℕ} (h : scan ph.byte n i r = .more r') : r'.rb.end_ = r.rb.end_ := by
  refine scan_inv (fun _ q => q.rb.end_ = r.rb.end_) (i + n) (fun j q q' _ hq hm => ?_) le_rfl rfl h
  have hcursors := ph.byte_cursors j q
  rw [hm] at hcursors
  exact hcursors.2.trans hq

/-- What a parser makes of the end of its loop. -/
def Phase.ends (ph : Phase) : Step Request Exit → Except Fault (Rc × Request)
  | .more r => .ok (.again, rbConsumed r)
  | .stop e => ph.exit e

theorem parseCall_ends (hph : ph ≠ .stopped) (r : Request) :
    parseCall ph r = ph.ends (scan ph.byte r.rb.size r.rb.begin r) := by
  rw [parseCall_eq]
  cases scan ph.byte r.rb.size r.rb.begin r with
  | more q => simp only [if_neg hph, Phase.ends]
  | stop e => rfl

/-- A call with more bytes in the buffer: those that were there first. -/
theorem parseCall_split (hb : r.rb.begin ≤ r.rb.end_) (d : List UInt8) (hph : ph ≠ .stopped) :
    parseCall ph (r.mapRb (·.put d)) =
      ph.ends (((scan ph.byte r.rb.size r.rb.begin r).map (.mapRb (·.put d)) (.mapRb (·.put d))).bind
        (scan ph.byte d.length r.rb.end_)) := by
  have hsize : (r.mapRb (·.put d)).rb.size = r.rb.size + d.length := by
    unfold Buffer.size
    show r.rb.end_ + d.length - r.rb.begin = _
    omega
  have hend : r.rb.begin + r.rb.size = r.rb.end_ := by unfold Buffer.size; omega
  rw [parseCall_ends hph, hsize, scan_add, show (r.mapRb (·.put d)).rb.begin = r.rb.begin from rfl,
    scan_put ph d hend.le, hend]

/-- **A call that ends a line**, or fails, is the same with more bytes behind the end. -/
theorem parseCall_put (hb : r.rb.begin ≤ r.rb.end_) (d : List UInt8) (hph : ph ≠ .stopped)
    (hr : ∀ q, parseCall ph r ≠ .ok (.again, q)) :
    parseCall ph (r.mapRb (·.put d)) = (parseCall ph r).map (Prod.map id (.mapRb (·.put d))) := by
  rw [parseCall_split hb d hph, parseCall_ends hph]
  cases hscan : scan ph.byte r.rb.size r.rb.begin r with
  | more q =>
      rw [parseCall_ends hph, hscan] at hr
      exact absurd rfl (hr _)
  | stop e => exact ph.exit_put e d

theorem parseCall_done (hb : r.rb.begin ≤ r.rb.end_) (d : List UInt8) (hph : ph ≠ .stopped)
    (h : parseCall ph r = .ok (rc, r')) (hrc : rc ≠ .again) :
    parseCall ph (r.mapRb (·.put d)) = .ok (rc, r'.mapRb (·.put d)) := by
  have hput := parseCall_put hb d hph fun q hq => hrc (congrArg Prod.fst (Except.ok.inj (h.symm.trans hq)))
  rw [h] at hput
  exact hput

/-- What a loop can be left with by a `return`: an error of the request line. -/
theorem scan_ret {n i : ℕ} (h : scan ph.byte n i r = .stop (.ret rc r')) :
    ph = .line ∧ rc ≠ .ok ∧ rc ≠ .again := by
  obtain ⟨k, -, t, -, -, hstop⟩ :=
    scan_stop_inv (fun _ _ => True) (i + n) (fun _ _ _ _ _ _ => trivial) le_rfl trivial h
  cases ph with
  | line => exact ⟨rfl, requestLineByte_ret hstop⟩
  | headers => exact absurd hstop headerLineByte_ret
  | stopped => cases hstop

/-- An answer `AGAIN` is that of a loop that has run out of bytes. -/
theorem parseCall_again (hph : ph ≠ .stopped) (h : parseCall ph r = .ok (.again, r')) :
    ∃ q, scan ph.byte r.rb.size r.rb.begin r = .more q ∧ r' = rbConsumed q := by
  rw [parseCall_ends hph] at h
  cases hscan : scan ph.byte r.rb.size r.rb.begin r with
  | more q =>
      rw [hscan] at h
      cases h
      exact ⟨q, rfl, rfl⟩
  | stop e =>
      obtain ⟨k, -, t, -, -, hstop⟩ :=
        scan_stop_inv (fun _ _ => True) _ (fun _ _ _ _ _ _ => trivial) le_rfl trivial hscan
      rw [hscan] at h
      change ph.exit e = _ at h
      rcases Phase.byte_stop hstop with ⟨f, hf⟩ | ⟨rc, q, hok, hrc, -, -⟩
      · rw [hf] at h
        cases h
      · rw [hok] at h
        cases h
        exact absurd rfl hrc

/-- **A call that runs out of bytes** goes on where it was.  Only `rb.begin` of a request that is refused
tells the two apart. -/
theorem parseCall_resumes (hb : r.rb.begin ≤ r.rb.end_) (d : List UInt8) (hph : ph ≠ .stopped)
    (h : parseCall ph r = .ok (.again, r')) :
    parseCall ph (r'.mapRb (·.put d)) = parseCall ph (r.mapRb (·.put d)) ∨
      ph = .line ∧ ∃ rc q k, rc ≠ .ok ∧ rc ≠ .again ∧ parseCall ph (r.mapRb (·.put d)) = .ok (rc, q) ∧
        parseCall ph (r'.mapRb (·.put d)) = .ok (rc, q.mapRb (beginAt k)) := by
  obtain ⟨q, hscan, rfl⟩ := parseCall_again hph h
  have hend : q.rb.end_ = r.rb.end_ := scan_end hscan
  have hsize : ((rbConsumed q).mapRb (·.put d)).rb.size = d.length := by
    show q.rb.end_ + d.length - q.rb.end_ = d.length
    omega
  have hfull : scan ph.byte d.length r.rb.end_ ((rbConsumed q).mapRb (·.put d)) =
      (scan ph.byte d.length r.rb.end_ (q.mapRb (·.put d))).map (.mapRb (beginAt q.rb.end_))
        (.mapRb (beginAt q.rb.end_)) := scan_beginAt ph q.rb.end_ _ _ (q.mapRb (·.put d))
  rw [parseCall_split hb d hph, hscan, Step.map_more, Step.bind_more, parseCall_ends hph, hsize,
    show ((rbConsumed q).mapRb (·.put d)).rb.begin = r.rb.end_ from hend, hfull]
  cases hrest : scan ph.byte d.length r.rb.end_ (q.mapRb (·.put d)) with
  | more t => exact .inl rfl
  | stop e =>
      cases e with
      | ret rc t =>
          obtain ⟨rfl, hok, hagain⟩ := scan_ret hrest
          exact .inr ⟨rfl, rc, t, q.rb.end_, hok, hagain, rfl, rfl⟩
      | done p t | abort f => cases ph <;> first | exact absurd rfl hph | exact .inl rfl

end parsers

/-! ### What a handler leaves where a session is changed -/

/-- The two outcomes are the same, up to `f`. -/
inductive Under {α : Type} (f : Session → Session) :
    Except Fault (α × Session) → Except Fault (α × Session) → Prop
  | error (g : Fault) : Under f (.error g) (.error g)
  | ok (a : α) (s : Session) : Under f (.ok (a, s)) (.ok (a, f s))

section under

variable {α β γ : Type} {f : Session → Session}

/-- Behind something that is the same up to `g`. -/
theorem under_of_map {g : γ → β} {x : Except Fault γ} {x' : Except Fault β}
    {k : γ → Except Fault (α × Session)} {k' : β → Except Fault (α × Session)} (hx : x' = x.map g)
    (h : ∀ a, x = .ok a → Under f (k a) (k' (g a))) : Under f (x >>= k) (x' >>= k') := by
  rw [hx]
  cases x with
  | error g => exact .error g
  | ok a => exact h a rfl

/-- Behind something that does not depend on the session. -/
theorem under_of_eq {x x' : Except Fault γ} {k k' : γ → Except Fault (α × Session)} (hx : x' = x)
    (h : ∀ a, x = .ok a → Under f (k a) (k' a)) : Under f (x >>= k) (x' >>= k') :=
  under_of_map (g := id) (hx.trans (congrFun Except.map_id x).symm) h

theorem Under.bind {x y : Except Fault (β × Session)} {k k' : β × Session → Except Fault (α × Session)}
    (h : Under f x y) (hk : ∀ b s, Under f (k (b, s)) (k' (b, f s))) : Under f (x >>= k) (y >>= k') := by
  cases h with
  | error g => exact .error g
  | ok b s => exact hk b s

theorem Under.of_ok {a : α} {s : Session} {y : Except Fault (α × Session)} (h : Under f (.ok (a, s)) y) :
    y = .ok (a, f s) := by
  cases h
  rfl

theorem Under.ite {c : Prop} [Decidable c] {x x' y y' : Except Fault (α × Session)}
    (hx : c → Under f x x') (hy : ¬ c → Under f y y') :
    Under f (if c then x else y) (if c then x' else y') := by
  split_ifs with h
  · exact hx h
  · exact hy h

end under

/-- Another read buffer, and actions in front of all others. -/
def Session.varied (g : Buffer → Buffer) (l : List Action) (s : Session) : Session :=
  { s with r := s.r.mapRb g, log := s.log ++ l }

/-! ### The handler of the URI -/

section uri

variable {cfg : Config} {e : Env} {s : Session} {r : Request} {g : Buffer → Buffer} {d : List UInt8}
  {l : List Action}

theorem responseBuildErr_varied (date : List UInt8) (status : ℕ) (s : Session) :
    Under (.varied g l) (responseBuildErr date status s) (responseBuildErr date status (s.varied g l)) := by
  unfold responseBuildErr
  exact under_of_eq rfl fun _ _ => under_of_eq rfl fun _ _ => .ok _ _

theorem uwsgiOpenConnection_varied (up : Upstream) (pass : Bool) (s : Session) :
    Under (.varied g l) (uwsgiOpenConnection up pass s) (uwsgiOpenConnection up pass (s.varied g l)) := by
  unfold uwsgiOpenConnection
  refine .ite (fun _ => .error _) fun _ => .ite (fun _ => .ok _ _) fun _ => ?_
  dsimp only
  rw [show ((s.varied g l).g.openFd up.fd) = s.g.openFd up.fd from rfl]
  obtain ⟨ok, heap⟩ :=
    ((s.g.openFd up.fd).heap.setTime (s.g.openFd up.fd).pool.alloc.1 up.now).register
      (s.g.openFd up.fd).pool.alloc.1
  cases ok with
  | false => exact under_of_eq rfl fun _ _ => .ok _ _
  | true => exact .ite (fun _ => under_of_eq rfl fun _ _ => .ok _ _) fun _ => .ok _ _

/-- What `sy_request_handle_uri` reads through the pointers of `r->uri` is the same in the other buffer. -/
structure UriSeen (cfg : Config) (g : Buffer → Buffer) (r : Request) : Prop where
  host : uriHost (r.mapRb g) = (uriHost r).map (.mapRb g)
  location : matchLocation (r.mapRb g).mem r.uri.absPath.data cfg.locations =
    matchLocation r.mem r.uri.absPath.data cfg.locations
  path (host : Str) (port : ℤ) : relPath ({ r with host := host, port := port }.mapRb g) =
    (relPath { r with host := host, port := port }).map (Prod.map (.mapRb g) id)

theorem UriSeen.same (cfg : Config) (r : Request) : UriSeen cfg id r := by
  have hid : Request.mapRb id = id := rfl
  constructor
  · rw [hid, Except.map_id]
    rfl
  · rfl
  · intro host port
    rw [hid, Prod.map_id, Except.map_id]
    rfl

/-- Only a line feed compares with a line feed. -/
theorem cToLower_lf {c : UInt8} (h : cToLower c = cToLower cLf) : c = cLf := by
  rw [show cToLower cLf = cLf by decide] at h
  unfold cToLower at h
  split_ifs at h with hc
  · have hrange : 65 ≤ c.toNat ∧ c.toNat ≤ 90 := by
      simpa [isUpper, UInt8.le_iff_toNat_le] using hc
    have hval := congrArg UInt8.toNat h
    simp only [toLower, cLf, UInt8.toNat_add, UInt8.toNat_sub, UInt8.toNat_ofNat] at hval
    omega
  · exact h

/-- A comparison with a string without a line feed ends at the first line feed at the latest. -/
theorem strncaseEq_line {m m' : Mem} {x : List UInt8} {i n : ℕ}
    (hm : ∀ k ≤ n, m' (.rb (i + k)) = m (.rb (i + k))) (hlf : m (.rb (i + n)) = cLf) (hx : cLf ∉ x) :
    strncaseEq m' x (.rb i) = strncaseEq m x (.rb i) := by
  induction x generalizing i n with
  | nil => rfl
  | cons c x ih =>
      obtain ⟨hc, hx⟩ := not_or.mp (List.mem_cons.not.mp hx)
      unfold strncaseEq
      rw [show m' (.rb i) = m (.rb i) from hm 0 (Nat.zero_le n)]
      by_cases heq : cToLower c = cToLower (m (.rb i))
      · have hn : n ≠ 0 := by
          rintro rfl
          rw [show m (.rb i) = cLf from hlf] at heq
          exact hc (cToLower_lf heq).symm
        obtain ⟨n, rfl⟩ := Nat.exists_eq_succ_of_ne_zero hn
        have hstep : ∀ k, i + 1 + k = i + (k + 1) := fun k => by omega
        have hrec := ih (i := i + 1) (n := n) (fun k hk => hstep k ▸ hm (k + 1) (Nat.succ_le_succ hk))
          (hstep n ▸ hlf) hx
        rw [show (Ptr.rb i).add 1 = .rb (i + 1) from rfl, hrec]
      · rw [if_pos heq, if_pos heq]

/-- The pointers of `r->uri` behind an accepted line: the port was counted up from `NULL`, and the path
ends in front of the line feed of the line.  It is not of length 0, as it is behind an extension that a
query follows (`relPath_zero`), and no configured location has a line feed. -/
structure UriWithin (cfg : Config) (r : Request) : Prop where
  size : r.rb.end_ ≤ BUF_SIZE
  port : PortCounted r.uri
  path : ∃ p n i : ℕ, r.uri.absPath = ⟨.rb p, n⟩ ∧ n ≠ 0 ∧ p + n ≤ i ∧ i < r.rb.end_ ∧ r.rb.mem i = cLf
  nul : 0 ∉ r.uri.absPath.bytes r.mem
  locations : ∀ loc ∈ cfg.locations, cLf ∉ loc.path

theorem uriHost_put (hport : PortCounted r.uri) :
    uriHost (r.mapRb (·.put d)) = (uriHost r).map (.mapRb (·.put d)) := by
  unfold uriHost
  by_cases hh : r.uri.host.data = .NULL
  · rw [if_pos hh, if_pos (show (r.mapRb _).uri.host.data = .NULL from hh)]
    rfl
  rw [if_neg hh, if_neg (show (r.mapRb _).uri.host.data ≠ .NULL from hh)]
  rcases hport with h | ⟨-, h⟩
  · dsimp only
    rw [if_pos h, if_pos (show (r.mapRb _).uri.port.data = .NULL from h)]
    rfl
  · have hn : r.uri.port.data ≠ .NULL := by rw [h]; simp
    dsimp only
    rw [if_neg hn, if_neg (show (r.mapRb _).uri.port.data ≠ .NULL from hn), h,
      show (r.mapRb _).uri.port.data = .null 1 from h]
    rfl

theorem matchLocation_put {p n i : ℕ} (hpath : r.uri.absPath = ⟨.rb p, n⟩) (hi : p + n ≤ i)
    (hend : i < r.rb.end_) (hlf : r.rb.mem i = cLf) (locs : List Location)
    (hlocs : ∀ loc ∈ locs, cLf ∉ loc.path) :
    matchLocation (r.mapRb (·.put d)).mem r.uri.absPath.data locs =
      matchLocation r.mem r.uri.absPath.data locs := by
  rw [hpath]
  induction locs with
  | nil => rfl
  | cons loc locs ih =>
      obtain ⟨hloc, hlocs⟩ := List.forall_mem_cons.mp hlocs
      have hcmp : strncaseEq (r.mapRb (·.put d)).mem loc.path (.rb p) =
          strncaseEq r.mem loc.path (.rb p) := by
        refine strncaseEq_line (n := i - p) (fun k hk => ?_) ?_ hloc
        · exact r.rb.put_mem_lt d (by omega)
        · rw [Nat.add_sub_cancel' (by omega)]
          exact hlf
      unfold matchLocation
      rw [hcmp, ih hlocs]

theorem relPath_put {p n : ℕ} (hpath : r.uri.absPath = ⟨.rb p, n⟩) (hn : n ≠ 0)
    (hend : p + n < r.rb.end_) (hsize : r.rb.end_ ≤ BUF_SIZE) (hnul : 0 ∉ r.uri.absPath.bytes r.mem) :
    relPath (r.mapRb (·.put d)) = (relPath r).map (Prod.map (.mapRb (·.put d)) id) := by
  obtain ⟨m, rfl⟩ := Nat.exists_eq_succ_of_ne_zero hn
  have hpos : p + (m + 1) = p + 1 + m := by omega
  have hwrite : (r.rb.put d).write (p + (m + 1)) 0 = (r.rb.write (p + (m + 1)) 0).put d :=
    ((transparent_put d hend).write 0).symm
  have hbytes : ∀ c ∈ r.rb.slice (p + 1) (p + 1 + m), c ≠ 0 := by
    intro c hc hc0
    obtain ⟨k, hk, rfl⟩ := List.mem_map.mp hc
    rw [List.mem_range, Nat.add_sub_cancel_left] at hk
    apply hnul
    rw [hpath, ← hc0]
    refine List.mem_map.mpr ⟨k + 1, List.mem_range.mpr (by simpa using hk), ?_⟩
    show r.rb.mem (p + (k + 1)) = r.rb.mem (p + 1 + k)
    rw [Nat.add_assoc, Nat.add_comm 1]
  -- the string ends at the NUL that was written
  have hcut : ∀ b : Buffer, b.mem (p + 1 + m) = 0 →
      (∀ k, p + 1 ≤ k → k < p + 1 + m → b.mem k = r.rb.mem k) →
        b.cString (p + 1) = r.rb.slice (p + 1) (p + 1 + m) := by
    intro b h0 hb
    have hslice := Buffer.slice_congr hb
    rw [Buffer.cString_eq (by omega) h0 (hslice ▸ hbytes), hslice]
  have hold := hcut (r.rb.write (p + (m + 1)) 0) (hpos ▸ r.rb.write_mem_same _ 0) fun k _ hk =>
    r.rb.write_mem_ne 0 (by omega)
  have hput : ∀ k, k < r.rb.end_ → ((r.rb.write (p + (m + 1)) 0).put d).mem k =
      (r.rb.write (p + (m + 1)) 0).mem k := fun k hk => Buffer.put_mem_lt _ d hk
  have hnew := hcut ((r.rb.write (p + (m + 1)) 0).put d)
    ((hput _ (hpos ▸ hend)).trans (hpos ▸ r.rb.write_mem_same _ 0)) fun k _ hk =>
      (hput k (by omega)).trans (r.rb.write_mem_ne 0 (by omega))
  unfold relPath
  rw [show (r.mapRb (·.put d)).uri.absPath = ⟨.rb p, (m + 1 : ℕ)⟩ from hpath, hpath]
  dsimp only [Request.mapRb, Int.toNat_natCast]
  rw [hwrite, hnew, hold]
  rfl

theorem UriWithin.seen (h : UriWithin cfg r) (d : List UInt8) : UriSeen cfg (·.put d) r := by
  obtain ⟨p, n, i, hpath, hn, hi, hend, hlf⟩ := h.path
  exact ⟨uriHost_put h.port, matchLocation_put hpath hi hend hlf _ h.locations,
    fun _ _ => relPath_put hpath hn (hi.trans_lt hend) h.size h.nul⟩

/-- The path of an accepted line ends in front of the rest of the line. -/
theorem parseRequestLine_pathEnd {r₀ : Request} {a : ConnAddr} {t : List UInt8}
    (h : parseRequestLine (freshRequest r₀ a t) = .ok (.ok, r)) :
    ∃ p n : ℕ, r.uri.absPath = ⟨.rb p, n⟩ ∧ p + n < r.rb.begin := by
  obtain ⟨x, u, -, hbegin, hread, -, -, huri⟩ := parseRequestLine_consumed h
  obtain ⟨-, -, hpath⟩ := readUri_located x.noSpace hread
  obtain ⟨p, n, hs, -, -, hn⟩ := hpath.fallback
  refine ⟨p, n, huri ▸ hs, ?_⟩
  rw [hbegin]
  unfold LineText.text
  simp only [List.length_append, List.length_cons, List.length_replicate]
  omega

theorem UriWithin.of_line {r₀ : Request} {a : ConnAddr} {t : List UInt8}
    (h : parseRequestLine (freshRequest r₀ a t) = .ok (.ok, r)) (hfit : t.length ≤ BUF_SIZE)
    (hlen : r.uri.absPath.len ≠ 0) (hlocs : ∀ loc ∈ cfg.locations, cLf ∉ loc.path) : UriWithin cfg r := by
  obtain ⟨hport, -, hnul⟩ := parseRequestLine_located h
  obtain ⟨p, n, hpath, hp⟩ := parseRequestLine_pathEnd h
  obtain ⟨-, i, hi, hlf, hrb⟩ := parseRequestLine_done h
  have hend : (freshRequest r₀ a t).rb.end_ = t.length := Nat.zero_add _
  rw [hrb] at hp
  rw [hpath] at hlen
  refine ⟨?_, hport, ⟨p, n, i, hpath, by simpa using hlen, Nat.le_of_lt_succ hp, ?_, ?_⟩, hnul, hlocs⟩
  · rw [hrb]
    exact hend.trans_le hfit
  · rw [hrb]
    exact hi
  · rw [hrb]
    exact hlf

/-- **`sy_request_handle_uri`** sees what it reads. -/
theorem requestHandleUri_varied (h : UriSeen cfg g s.r) :
    Under (.varied g l) (requestHandleUri cfg e s) (requestHandleUri cfg e (s.varied g l)) := by
  unfold requestHandleUri
  refine under_of_map h.host fun r hr => ?_
  obtain ⟨host, port, rfl⟩ := uriHost_frame hr
  refine under_of_eq h.location fun loc _ => ?_
  cases loc with
  | none => exact responseBuildErr_varied _ _ _
  | some loc =>
      refine .ite (fun _ => (uwsgiOpenConnection_varied _ _ _).bind fun uc s => ?_) fun _ => ?_
      · exact .ite (fun _ => responseBuildErr_varied _ _ _) fun _ => .ok _ _
      · refine under_of_map (h.path host port) fun p _ => ?_
        obtain ⟨r, path⟩ := p
        dsimp only [Prod.map, id]
        cases e.resource path with
        | missing => exact responseBuildErr_varied _ _ _
        | file fd size => exact .ok _ _
        | directory dir index =>
            cases index with
            | none => exact responseBuildErr_varied _ _ _
            | some p => exact .ok _ _

end uri

/-! ### The log -/

section logged

variable {cfg : Config} {e : Env} {s : Session} {l : List Action}

theorem requestHandleRequestLine_logged :
    Under (.varied id l) (requestHandleRequestLine cfg e s)
      (requestHandleRequestLine cfg e (s.varied id l)) := by
  unfold requestHandleRequestLine
  refine under_of_eq rfl fun p _ => ?_
  obtain ⟨err, r⟩ := p
  refine .ite (fun _ => .ok _ _) fun _ => .ite (fun _ => responseBuildErr_varied _ _ _) fun _ => ?_
  exact .ite (fun _ => responseBuildErr_varied _ _ _) fun _ => requestHandleUri_varied (.same _ _)

theorem Processor.run_logged (p : Processor) (date : List UInt8) (offset : HeaderField) :
    Under (.varied id l) (p.run date offset s) (p.run date offset (s.varied id l)) := by
  cases p with
  | generic | host | accept | ifModifiedSince => exact .ok _ _
  | connection => exact under_of_eq rfl fun _ _ => .ok _ _
  | tEncoding =>
      refine under_of_eq rfl fun te _ => ?_
      cases te with
      | none => exact responseBuildErr_varied _ _ _
      | some te => exact .ok _ _
  | contentLength =>
      refine under_of_eq rfl fun len _ => ?_
      exact .ite (fun _ => responseBuildErr_varied _ _ _) fun _ => .ok _ _

theorem headersLoop_logged (n : ℕ) (s : Session) :
    Under (.varied id l) (headersLoop cfg e n s) (headersLoop cfg e n (s.varied id l)) := by
  induction n generalizing s with
  | zero => exact .ok _ _
  | succ n ih =>
      refine under_of_eq rfl fun p _ => ?_
      obtain ⟨err, r⟩ := p
      dsimp only
      cases err with
      | again | emptyLine => exact .ok _ _
      | ok =>
          dsimp only
          cases cfg.headerGet r.mem r.headerName with
          | none => exact ih _
          | some header =>
              refine (header.processor.run_logged _ _).bind fun rc s => ?_
              exact .ite (fun _ => .ok _ _) fun _ => ih s
      | _ => exact .error _

theorem requestHandleBody_logged :
    Under (.varied id l) (requestHandleBody e s) (requestHandleBody e (s.varied id l)) := by
  unfold requestHandleBody bodyRespond enableUpstreamOut
  refine .ite (fun _ => .error _) fun _ => ?_
  dsimp only
  rw [show (s.varied id l).r = s.r from rfl]
  obtain ⟨err, r⟩ := parseRequestBodyIdentity s.r
  cases err with
  | again =>
      dsimp only
      split_ifs
      · exact .error _
      · exact .ok _ _
  | ok =>
      dsimp only
      split_ifs with huc
      · cases responseBuild e.date r with
        | error f => exact .error f
        | ok r => exact .ok _ _
      · exact .error _
      · exact .ok _ _
  | _ => exact responseBuildErr_varied _ _ _

theorem InHandler.run_logged (h : InHandler) (s : Session) :
    Under (.varied id l) (h.run cfg e s) (h.run cfg e (s.varied id l)) := by
  cases h with
  | requestLine => exact requestHandleRequestLine_logged
  | headers => exact headersLoop_logged _ s
  | body => exact requestHandleBody_logged

/-- **The loop of `sy_handle_request`** does not look at the log. -/
theorem requestLoop_logged (n : ℕ) (s : Session) (l : List Action) :
    requestLoop cfg e n (s.varied id l) =
      ((requestLoop cfg e n s).1, (requestLoop cfg e n s).2.varied id l) := by
  induction n generalizing s with
  | zero => rfl
  | succ n ih =>
      have hrun := @InHandler.run_logged cfg e l s.r.inHandler (s.note (.called s.r.inHandler s.r.state))
      unfold requestLoop
      dsimp only
      rw [show (s.varied id l).note (.called (s.varied id l).r.inHandler (s.varied id l).r.state) =
        (s.note (.called s.r.inHandler s.r.state)).varied id l from rfl]
      generalize hx : s.note (.called s.r.inHandler s.r.state) = x at hrun ⊢
      have hin : x.r.inHandler = s.r.inHandler := hx ▸ rfl
      rw [show (x.varied id l).r.inHandler = s.r.inHandler from hin, hin]
      generalize s.r.inHandler.run cfg e x = y at hrun ⊢
      generalize s.r.inHandler.run cfg e (x.varied id l) = z at hrun ⊢
      cases hrun with
      | error f => rfl
      | ok rc s' =>
          dsimp only
          rw [show (s'.varied id l).r = s'.r from rfl]
          split_ifs
          · exact ih s'
          · rfl

end logged

end SyServer
