import SyServer.Events

/-! # What a handler leaves alone

A handler works on one session.  `Frame` says what of a session no handler changes, and how the
shared data change: at most one address leaves the pool of connections, for a new upstream of a
request that had none, and every open connection keeps its time and stays registered.
The worker's other sessions rest on this.

`Tidy` is an invariant of the model only: where there is no upstream connection, none is
remembered. -/

namespace SyServer

open Relation (ReflTransGen)
open Transition (kept_of_moves)

/-! ### The shared data -/

/-- As long as no registration was refused, the open connections are the registered ones. -/
def Shared.Tracks (g : Shared) : Prop :=
  g.refused = false → g.heap.Indexed ∧ ∀ x, g.heap.Elem x ↔ g.pool.Live x

/-- The change of the shared data by a handler that opens the connection `o`, or none. -/
structure SharedFrame (g : Shared) (o : Option ConnAddr) (g' : Shared) : Prop where
  pool : g'.pool.Ok
  fresh : ∀ a ∈ o, ¬ g.pool.Live a
  live : ∀ x, g'.pool.Live x ↔ x ∈ o ∨ g.pool.Live x
  refused : g.refused = true → g'.refused = true
  tracks : g.Tracks → g'.Tracks
  time : ∀ x, g.pool.Live x → g'.heap.time x = g.heap.time x

/-- Descriptors are opened and closed. -/
theorem SharedFrame.of_fds {g g' : Shared} (hp : g.pool.Ok) (hg : g' = { g with fds := g'.fds }) :
    SharedFrame g none g' := by
  rw [hg]
  exact ⟨hp, (fun a ha => by cases ha), fun x => by simp, id, id, fun _ _ => rfl⟩

theorem SharedFrame.trans {g₁ g₂ g₃ : Shared} {o o' : Option ConnAddr}
    (h : SharedFrame g₁ o g₂) (h' : SharedFrame g₂ o' g₃) (hone : o = none ∨ o' = none) :
    SharedFrame g₁ (o.or o') g₃ where
  pool := h'.pool
  fresh a ha := by
    rcases hone with rfl | rfl
    · exact fun hl => h'.fresh a ha ((h.live a).mpr (.inr hl))
    · exact h.fresh a (by simpa using ha)
  live x := by
    rw [h'.live, h.live]
    rcases hone with rfl | rfl
    · simp
    · simp
  refused hr := h'.refused (h.refused hr)
  tracks ht := h'.tracks (h.tracks ht)
  time x hx := by rw [h'.time x ((h.live x).mpr (.inr hx)), h.time x hx]

/-- A connection outside the heap is registered. -/
theorem register_new {h heap : Heap} {a : ConnAddr} (t : ℤ) (hi : h.Indexed) (ha : ¬ h.Elem a)
    (hreg : (h.setTime a t).register a = (true, heap)) :
    heap.Indexed ∧ ∀ x, heap.Elem x ↔ x = a ∨ h.Elem x := by
  have hroom : (h.setTime a t).size + 1 ≤ MAX_CONNECTION := by
    by_contra hfull
    unfold Heap.register at hreg
    rw [if_pos (not_le.mp hfull)] at hreg
    cases hreg
  rw [Heap.register_of_room hroom] at hreg
  cases hreg
  have hr := Heap.register_rearranged (h := h.setTime a t) (c := a) hi ha
  exact ⟨hr.indexed, fun x => (hr.elem x).trans (Heap.pushed_elem _ _ _)⟩

/-- Opening an upstream connection. -/
theorem Opened.frame {g g' : Shared} {fd : ℕ} {o : Option ConnAddr} (hp : g.pool.Ok)
    (h : Opened g fd o g') :
    SharedFrame g o g' := by
  -- the new connection is none of the open ones
  have hother : ∀ {a : ConnAddr} (t : ℤ), ¬ g.pool.Live a → ∀ x, g.pool.Live x →
      (g.heap.setTime a t).time x = g.heap.time x := by
    intro a t hnew x hx
    apply Heap.setTime_time_ne
    rintro rfl
    exact hnew hx
  have hback : ∀ {a : ConnAddr} {pool : Pool}, g.pool.alloc = (a, pool) → ∀ x,
      (pool.release a).Live x ↔ g.pool.Live x := by
    intro a pool ha x
    obtain ⟨hok, hnew, hlive⟩ := Pool.alloc_spec hp ha
    rw [(Pool.release_spec hok ((hlive a).mpr (.inl rfl))).2, hlive]
    by_cases hx : x = a
    · simp [hx, hnew]
    · simp [hx]
  cases h with
  | unreachable => exact .of_fds hp rfl
  | @refused a pool t heap ha htime =>
      obtain ⟨hok, hnew, hlive⟩ := Pool.alloc_spec hp ha
      obtain ⟨hok', -⟩ := Pool.release_spec hok ((hlive a).mpr (.inl rfl))
      refine ⟨hok', (fun a ha => by cases ha), fun x => ?_, fun _ => rfl, (fun _ h => by cases h),
        fun x hx => ?_⟩
      · rw [hback ha]
        simp
      · rw [htime]
        exact hother t hnew x hx
  | @closed a pool t heap heap' ha hreg hun =>
      obtain ⟨hok, hnew, hlive⟩ := Pool.alloc_spec hp ha
      obtain ⟨hok', -⟩ := Pool.release_spec hok ((hlive a).mpr (.inl rfl))
      refine ⟨hok', (fun a ha => by cases ha), fun x => by simpa using hback ha x, id, fun ht hr => ?_,
        fun x hx => ?_⟩
      · obtain ⟨hi, helem⟩ := ht hr
        have hout : ¬ g.heap.Elem a := fun he => hnew ((helem a).mp he)
        obtain ⟨hi₁, helem₁⟩ := register_new t hi hout hreg
        obtain ⟨heap₂, hun₂, hi₂, -, -, helem₂⟩ :=
          Heap.unregister_spec hi₁ ((helem₁ a).mpr (.inl rfl))
        obtain rfl : heap₂ = heap' := Except.ok.inj (hun₂.symm.trans hun)
        refine ⟨hi₂, fun x => ?_⟩
        show heap₂.Elem x ↔ (pool.release a).Live x
        rw [helem₂, helem₁, helem, hback ha]
        by_cases hx : x = a
        · simp [hx, hnew]
        · simp [hx]
      · show heap'.time x = _
        rw [(Heap.unregister_frame hun).2.2, Heap.register_time hreg]
        exact hother t hnew x hx
  | @done a pool t heap ha hreg =>
      obtain ⟨hok, hnew, hlive⟩ := Pool.alloc_spec hp ha
      refine ⟨hok, (fun b hb => by cases hb; exact hnew), fun x => ?_, id, fun ht hr => ?_, fun x hx => ?_⟩
      · show pool.Live x ↔ _
        rw [hlive]
        simp [eq_comm]
      · obtain ⟨hi, helem⟩ := ht hr
        have hout : ¬ g.heap.Elem a := fun he => hnew ((helem a).mp he)
        obtain ⟨hi₁, helem₁⟩ := register_new t hi hout hreg
        refine ⟨hi₁, fun x => ?_⟩
        show heap.Elem x ↔ pool.Live x
        rw [helem₁, helem, hlive]
      · show heap.time x = _
        rw [Heap.register_time hreg]
        exact hother t hnew x hx

/-! ### Sessions -/

/-- What a handler leaves of a session. -/
structure Frame (s s' : Session) : Prop where
  self : s'.self = s.self
  c : s'.r.c = s.r.c
  side : s'.c.side = s.c.side
  cr : s'.c.r = s.c.r
  back : (s'.r.uc = s.r.uc ∧ s'.u.side = s.u.side ∧ s'.u.r = s.u.r ∧ SharedFrame s.g none s'.g) ∨
    (s.r.uc = none ∧ s'.u.side = .back ∧ s'.u.r = s.self ∧ s'.r.uc ≠ none ∧
      SharedFrame s.g s'.r.uc s'.g)

/-- The events `EVENTS_OUT` of the two connections are not turned off. -/
structure KeepsOut (s s' : Session) : Prop where
  front : s.c.evOut = true → s'.c.evOut = true
  back : s.r.uc ≠ none → s.u.evOut = true → s'.u.evOut = true

theorem Frame.pool {s s' : Session} (h : Frame s s') : s'.g.pool.Ok := by
  rcases h.back with ⟨-, -, -, h⟩ | ⟨-, -, -, -, h⟩
  · exact h.pool
  · exact h.pool

/-- A change that opens nothing. -/
theorem Frame.of_same {s s' : Session} (hp : s.g.pool.Ok) (hself : s'.self = s.self)
    (hc : s'.r.c = s.r.c) (hside : s'.c.side = s.c.side) (hcr : s'.c.r = s.c.r)
    (huc : s'.r.uc = s.r.uc) (huside : s'.u.side = s.u.side) (hur : s'.u.r = s.u.r)
    (hg : s'.g = { s.g with fds := s'.g.fds }) : Frame s s' :=
  ⟨hself, hc, hside, hcr, .inl ⟨huc, huside, hur, .of_fds hp hg⟩⟩

theorem Frame.refl {s : Session} (hp : s.g.pool.Ok) : Frame s s :=
  .of_same hp rfl rfl rfl rfl rfl rfl rfl rfl

theorem Frame.uc {s s' : Session} (h : Frame s s') (huc : s.r.uc ≠ none) : s'.r.uc ≠ none := by
  rcases h.back with ⟨h1, -⟩ | ⟨h1, -⟩
  · rwa [h1]
  · exact absurd h1 huc

theorem Frame.trans {s₁ s₂ s₃ : Session} (h : Frame s₁ s₂) (h' : Frame s₂ s₃) : Frame s₁ s₃ := by
  refine ⟨h'.self.trans h.self, h'.c.trans h.c, h'.side.trans h.side, h'.cr.trans h.cr, ?_⟩
  rcases h.back with ⟨huc, hside, hr, hg⟩ | ⟨huc, hside, hr, hne, hg⟩
  · rcases h'.back with ⟨huc', hside', hr', hg'⟩ | ⟨huc', hside', hr', hne', hg'⟩
    · exact .inl ⟨huc'.trans huc, hside'.trans hside, hr'.trans hr, hg.trans hg' (.inl rfl)⟩
    · exact .inr ⟨huc ▸ huc', hside', hr'.trans h.self, hne', hg.trans hg' (.inl rfl)⟩
  · rcases h'.back with ⟨huc', hside', hr', hg'⟩ | ⟨huc', -⟩
    · refine .inr ⟨huc, hside'.trans hside, hr'.trans hr, huc' ▸ hne, ?_⟩
      have hboth := hg.trans hg' (.inr rfl)
      rw [Option.or_none] at hboth
      rwa [huc']
    · exact absurd huc' hne

theorem KeepsOut.trans {s₁ s₂ s₃ : Session} (hf : Frame s₁ s₂) (h : KeepsOut s₁ s₂)
    (h' : KeepsOut s₂ s₃) : KeepsOut s₁ s₃ :=
  ⟨fun ho => h'.front (h.front ho), fun huc ho => h'.back (hf.uc huc) (h.back huc ho)⟩

theorem frame_uri {s s' : Session} (hp : s.g.pool.Ok) (huc : s.r.uc = none) (hm : UriMove s s') :
    Frame s s' ∧ KeepsOut s s' := by
  cases hm with
  | notFound => exact ⟨.of_same hp rfl rfl rfl rfl rfl rfl rfl rfl, fun _ => rfl, fun _ => id⟩
  | refused host port hg hb =>
      refine ⟨⟨rfl, rfl, rfl, rfl, .inl ⟨?_, rfl, rfl, hg.frame hp⟩⟩, fun _ => rfl, fun _ => id⟩
      exact huc.symm
  | proxied host port fd hg =>
      exact ⟨⟨rfl, rfl, rfl, rfl, .inr ⟨huc, rfl, rfl, by simp, hg.frame hp⟩⟩, id,
        fun h => absurd huc h⟩
  | missing => exact ⟨.of_same hp rfl rfl rfl rfl rfl rfl rfl rfl, fun _ => rfl, fun _ => id⟩
  | found => exact ⟨.of_same hp rfl rfl rfl rfl rfl rfl rfl rfl, id, fun _ => id⟩

section moves

variable {cfg : Config} {e : Env} {s s' : Session}

theorem frame_client (hb : Base false s) (hp : s.g.pool.Ok) (hm : ClientMove cfg s s') :
    Frame s s' ∧ KeepsOut s s' := by
  have hline : ∀ {rc : Rc} {r : Request}, parseRequestLine s.r = .ok (rc, r) →
      r.c = s.r.c ∧ r.uc = s.r.uc := by
    intro rc r hparse
    obtain ⟨_, _, _, _, _, _, rfl, -⟩ := parseRequestLine_frame hparse
    exact ⟨rfl, rfl⟩
  have hheader : ∀ {rc : Rc} {r : Request}, parseHeaderLine s.r = .ok (rc, r) →
      r.c = s.r.c ∧ r.uc = s.r.uc := by
    intro rc r hparse
    obtain ⟨_, _, _, _, rfl, -, -⟩ := parseHeaderLine_frame hparse
    exact ⟨rfl, rfl⟩
  cases hm with
  | called => exact ⟨.of_same hp rfl rfl rfl rfl rfl rfl rfl rfl, id, fun _ => id⟩
  | lineMore hopen hin hparse =>
      exact ⟨.of_same hp rfl (hline hparse).1 rfl rfl (hline hparse).2 rfl rfl rfl, id, fun _ => id⟩
  | lineError status hopen hin hparse hrc hgrow =>
      exact ⟨.of_same hp rfl (hline hparse).1 rfl rfl (hline hparse).2 rfl rfl rfl, fun _ => rfl,
        fun _ => id⟩
  | @lineOk r s' k hopen hin hparse huri =>
      have hr := hline hparse
      have huc := (hb.fresh hin hopen).2.1
      obtain ⟨hf, hk⟩ := frame_uri
        (s := { s with r := { r with keepAlive := k, inHandler := .headers } }) hp (hr.2.trans huc) huri
      have hfirst : Frame s { s with r := { r with keepAlive := k, inHandler := .headers } } :=
        .of_same hp rfl hr.1 rfl rfl hr.2 rfl rfl rfl
      exact ⟨hfirst.trans hf, hk.front, fun h => absurd huc h⟩
  | headersMore hin hparse =>
      exact ⟨.of_same hp rfl (hheader hparse).1 rfl rfl (hheader hparse).2 rfl rfl rfl, id,
        fun _ => id⟩
  | header hin hparse =>
      exact ⟨.of_same hp rfl (hheader hparse).1 rfl rfl (hheader hparse).2 rfl rfl rfl, id,
        fun _ => id⟩
  | @headerSet r v hs k te n hin hparse hget hk =>
      have hr := hheader hparse
      exact ⟨.of_same hp rfl hr.1 rfl rfl hr.2 rfl rfl rfl, id, fun _ => id⟩
  | @headerError r v b hs status hin hparse hget hgrow =>
      have hr := hheader hparse
      exact ⟨.of_same hp rfl hr.1 rfl rfl hr.2 rfl rfl rfl, fun _ => rfl, fun _ => id⟩
  | @headersEnd r hin hparse =>
      have hr := hheader hparse
      exact ⟨.of_same hp rfl hr.1 rfl rfl hr.2 rfl rfl rfl, id, fun _ => id⟩
  | bodyMore => exact ⟨.of_same hp rfl rfl rfl rfl rfl rfl rfl rfl, id, fun _ _ => rfl⟩
  | bodyRelayed => exact ⟨.of_same hp rfl rfl rfl rfl rfl rfl rfl rfl, id, fun _ _ => rfl⟩
  | bodyLocal => exact ⟨.of_same hp rfl rfl rfl rfl rfl rfl rfl rfl, fun _ => rfl, fun _ => id⟩

theorem frame_receive (hp : s.g.pool.Ok) (d : List UInt8) :
    Frame s (s.receive d) ∧ KeepsOut s (s.receive d) :=
  ⟨.of_same hp rfl rfl rfl rfl rfl rfl rfl rfl, id, fun _ => id⟩

theorem frame_late (hp : s.g.pool.Ok) (hm : LateMove s s') : Frame s s' ∧ KeepsOut s s' := by
  cases hm with
  | aborted => exact ⟨.of_same hp rfl rfl rfl rfl rfl rfl rfl rfl, id, fun _ => id⟩
  | empty => exact ⟨.of_same hp rfl rfl rfl rfl rfl rfl rfl rfl, id, fun _ => id⟩

/-- A call of `sy_handle_request`. -/
theorem frame_handleRequest (cfg : Config) (hb : Base true s) (hp : s.g.pool.Ok) :
    Frame s (handleRequest cfg e s).2 ∧ KeepsOut s (handleRequest cfg e s).2 := by
  have hrun : handleRequest cfg e s = ((handleRequest cfg e s).1, (handleRequest cfg e s).2) := rfl
  by_cases hl : s.Late
  · obtain ⟨d, -, h | ⟨-, hm⟩⟩ := handleRequest_late hl (hb.late_pending hl) hrun
    · rw [h]
      exact frame_receive hp d
    · obtain ⟨hf, hk⟩ := frame_receive hp d
      have hlast := frame_late hf.pool hm
      exact ⟨hf.trans hlast.1, hk.trans hf hlast.2⟩
  · obtain ⟨d, -, hmoves, -⟩ := handleRequest_moves (fun _ => hl) hrun
    have hfirst := frame_receive hp d
    have hkept := kept_of_moves (fun t => Base false t ∧ Frame s t ∧ KeepsOut s t)
      (fun t t' ⟨ht, hf, hk⟩ hm =>
        have hmove := frame_client ht hf.pool hm
        ⟨base_client ht hm, hf.trans hmove.1, hk.trans hf hmove.2⟩)
      ⟨base_receive hb d, hfirst⟩ hmoves
    exact hkept.2

theorem frame_response (hp : s.g.pool.Ok) (hm : ResponseMove s s') :
    Frame s s' ∧ (s.u.evOut = true → s'.u.evOut = true) := by
  cases hm with
  | sent hs hd =>
      obtain ⟨_, _, _, _, _, _, _, rfl, -⟩ := hs
      exact ⟨.of_same hp rfl rfl rfl rfl rfl rfl rfl rfl, id⟩
  | cleared hs hd hk =>
      obtain ⟨_, _, _, _, _, _, _, rfl, -⟩ := hs
      exact ⟨.of_same hp rfl rfl rfl rfl rfl rfl rfl rfl, id⟩

theorem frame_upstream (hp : s.g.pool.Ok) (hm : UpstreamMove e s s') :
    Frame s s' ∧ KeepsOut s s' := by
  cases hm with
  | more => exact ⟨.of_same hp rfl rfl rfl rfl rfl rfl rfl rfl, fun _ => rfl, fun _ => id⟩
  | eof => exact ⟨.of_same hp rfl rfl rfl rfl rfl rfl rfl rfl, id, fun _ => id⟩
  | failed => exact ⟨.of_same hp rfl rfl rfl rfl rfl rfl rfl rfl, fun _ => rfl, fun _ => id⟩

theorem frame_pass (hp : s.g.pool.Ok) (hm : PassMove e s s') :
    Frame s s' ∧ (s.c.evOut = true → s'.c.evOut = true) := by
  cases hm with
  | done => exact ⟨.of_same hp rfl rfl rfl rfl rfl rfl rfl rfl, id⟩
  | part => exact ⟨.of_same hp rfl rfl rfl rfl rfl rfl rfl rfl, id⟩
  | failed => exact ⟨.of_same hp rfl rfl rfl rfl rfl rfl rfl rfl, fun _ => rfl⟩

end moves

/-! ### No upstream, nothing remembered -/

/-- Where `r->uc` is `NULL`, no connection stands behind it. -/
def Tidy (_ : Bool) (s : Session) : Prop := s.r.uc = none → s.u = .unset

theorem tidy_uri {s s' : Session} (h : Tidy false s) (huc : s.r.uc = none) (hm : UriMove s s') :
    Tidy false s' := by
  cases hm with
  | proxied => exact fun h => by cases h
  | _ => exact fun _ => h huc

theorem tidy_client {cfg : Config} {s s' : Session} (hb : Base false s) (h : Tidy false s)
    (hm : ClientMove cfg s s') : Tidy false s' := by
  have hline : ∀ {rc : Rc} {r : Request}, parseRequestLine s.r = .ok (rc, r) → r.uc = s.r.uc := by
    intro rc r hparse
    obtain ⟨_, _, _, _, _, _, rfl, -⟩ := parseRequestLine_frame hparse
    rfl
  have hheader : ∀ {rc : Rc} {r : Request}, parseHeaderLine s.r = .ok (rc, r) → r.uc = s.r.uc := by
    intro rc r hparse
    obtain ⟨_, _, _, _, rfl, -, -⟩ := parseHeaderLine_frame hparse
    rfl
  cases hm with
  | called => exact h
  | lineMore hopen hin hparse => exact fun huc => h ((hline hparse).symm.trans huc)
  | lineError status hopen hin hparse => exact fun huc => h ((hline hparse).symm.trans huc)
  | @lineOk r s' k hopen hin hparse huri =>
      have huc := (hb.fresh hin hopen).2.1
      have huc' : r.uc = none := (hline hparse).trans huc
      exact tidy_uri (s := { s with r := { r with keepAlive := k, inHandler := .headers } })
        (fun _ => h huc) huc' huri
  | headersMore hin hparse => exact fun huc => h ((hheader hparse).symm.trans huc)
  | header hin hparse => exact fun huc => h ((hheader hparse).symm.trans huc)
  | headerSet hs k te n hin hparse => exact fun huc => h ((hheader hparse).symm.trans huc)
  | headerError hs status hin hparse => exact fun huc => h ((hheader hparse).symm.trans huc)
  | headersEnd hin hparse => exact fun huc => h ((hheader hparse).symm.trans huc)
  | bodyMore n hin hlen huc => exact fun h => absurd h huc
  | bodyRelayed n hin huc => exact fun h => absurd h huc
  | bodyLocal => exact h

theorem invariant_tidy (cfg : Config) : Invariant cfg (fun _ _ => True) Tidy (Tidy false) where
  share _ _ _ h := h
  poll _ _ _ _ _ h := h
  receive _ _ _ h := h
  call _ _ _ _ _ _ _ _ h := h
  client _ _ hb h hm := tidy_client hb h hm
  late s s' e d _ _ _ _ _ h hm := by
    cases hm with
    | aborted => exact h
    | empty => exact h
  return_ _ _ h := h
  pass p s s' e _ huc _ _ _ hm := by
    cases hm <;> exact fun h => absurd h huc
  upstream p s s' e _ huc _ _ hm := by
    cases hm <;> exact fun h => absurd h huc
  response p s s' _ _ h hm := by
    cases hm with
    | sent hs hd =>
        obtain ⟨_, _, _, _, _, _, _, rfl, -⟩ := hs
        exact h
    | cleared hs hd hk =>
        obtain ⟨_, _, _, _, _, _, _, rfl, -⟩ := hs
        exact h
  close _ _ _ _ _ _ := rfl

end SyServer
