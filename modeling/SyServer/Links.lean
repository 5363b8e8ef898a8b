import SyServer.Frames
import SyServer.Server

/-! # The pointers between connections and requests

`Wired` is the shape of a worker's memory: a front connection and its request point at each
other, an upstream connection and its request point at each other, what is pointed at is open, and
nothing is handed out twice.  Every operation of the worker keeps it, and each one touches one
session only: the others are `Aside`, their connections and requests the same.  No assumption on
the timeout heap is needed. -/

namespace SyServer

namespace Server

/-- The pointers of a worker's memory. -/
structure Wired (v : Server) : Prop where
  pool : v.g.pool.Ok
  reqPool : v.reqPool.Ok
  front : ∀ a, v.Front a → v.reqPool.Live (v.conns a).r ∧ (v.reqs (v.conns a).r).c = a
  back : ∀ a, v.Live a → (v.conns a).side = .back →
    ∃ f, v.Front f ∧ (v.conns f).r = (v.conns a).r ∧ (v.reqs (v.conns a).r).uc = some a
  up : ∀ a u, v.Front a → (v.reqs (v.conns a).r).uc = some u →
    v.Live u ∧ (v.conns u).side = .back ∧ (v.conns u).r = (v.conns a).r

/-- The session of the front connection `a` is the same up to the shared data. -/
structure Aside (v v' : Server) (a : ConnAddr) : Prop where
  front : v.Front a
  conns : v'.conns a = v.conns a
  session : v'.session (v.conns a).r = (v.session (v.conns a).r).share v'.g

theorem Aside.trans {v₁ v₂ v₃ : Server} {a : ConnAddr} (h : Aside v₁ v₂ a) (h' : Aside v₂ v₃ a) :
    Aside v₁ v₃ a := by
  refine ⟨h.front, h'.conns.trans h.conns, ?_⟩
  have := h'.session
  rw [h.conns, h.session] at this
  exact this

/-- The session of an address from its parts. -/
theorem session_eq {v v' : Server} {q : ReqAddr} (hr : v'.reqs q = v.reqs q)
    (hc : v'.conns (v.reqs q).c = v.conns (v.reqs q).c)
    (hu : ∀ u, (v.reqs q).uc = some u → v'.conns u = v.conns u) (hlog : v'.log q = v.log q) :
    v'.session q = (v.session q).share v'.g := by
  unfold session Session.share
  rw [hr, hc, hlog]
  cases huc : (v.reqs q).uc with
  | none => rfl
  | some u => simp only [hu u huc]

/-- The upstream connection of a session that has one. -/
theorem session_u {v : Server} {q : ReqAddr} {u : ConnAddr} (h : (v.reqs q).uc = some u) :
    (v.session q).u = v.conns u := by
  simp [session, h]

/-! ### Only times change -/

/-- The two states differ in the timeout heap and in what the worker does next. -/
structure SameMemory (v v' : Server) : Prop where
  conns : v'.conns = v.conns
  reqs : v'.reqs = v.reqs
  reqPool : v'.reqPool = v.reqPool
  pool : v'.g.pool = v.g.pool
  log : v'.log = v.log

section same

variable {v v' : Server}

theorem SameMemory.live (h : SameMemory v v') (a : ConnAddr) : v'.Live a ↔ v.Live a := by
  unfold Live
  rw [h.pool]

theorem SameMemory.front (h : SameMemory v v') (a : ConnAddr) : v'.Front a ↔ v.Front a := by
  unfold Front
  rw [h.live, h.conns]

theorem SameMemory.wired (h : SameMemory v v') (hw : v.Wired) : v'.Wired where
  pool := h.pool ▸ hw.pool
  reqPool := h.reqPool ▸ hw.reqPool
  front a ha := by
    rw [h.conns, h.reqs, h.reqPool]
    exact hw.front a ((h.front a).mp ha)
  back a ha hs := by
    rw [h.conns] at hs ⊢
    rw [h.reqs]
    obtain ⟨f, hf, hr, huc⟩ := hw.back a ((h.live a).mp ha) hs
    exact ⟨f, (h.front f).mpr hf, hr, huc⟩
  up a u ha hu := by
    rw [h.conns, h.reqs] at hu
    rw [h.conns, h.live]
    exact hw.up a u ((h.front a).mp ha) hu

theorem SameMemory.session (h : SameMemory v v') (q : ReqAddr) :
    v'.session q = (v.session q).share v'.g :=
  session_eq (by rw [h.reqs]) (by rw [h.conns]) (fun _ _ => by rw [h.conns]) (by rw [h.log])

theorem SameMemory.aside (h : SameMemory v v') {a : ConnAddr} (ha : v'.Front a) : Aside v v' a :=
  ⟨(h.front a).mp ha, by rw [h.conns], h.session _⟩

end same

/-! ### A session is written back -/

section store

variable {v : Server} {a : ConnAddr} {s : Session}

/-- A session that a handler left, of the front connection `a`. -/
structure Handled (v : Server) (a : ConnAddr) (s : Session) : Prop where
  wired : v.Wired
  front : v.Front a
  frame : Frame (v.session (v.conns a).r) s

theorem Handled.self (h : Handled v a s) : s.self = (v.conns a).r := h.frame.self

theorem Handled.c (h : Handled v a s) : s.r.c = a :=
  h.frame.c.trans (h.wired.front a h.front).2

theorem Handled.session_c (h : Handled v a s) : (v.session (v.conns a).r).c = v.conns a := by
  show v.conns (v.reqs (v.conns a).r).c = v.conns a
  rw [(h.wired.front a h.front).2]

/-- The upstream connection of the session: it was there, or its address was free. -/
theorem Handled.up (h : Handled v a s) {u : ConnAddr} (hu : s.r.uc = some u) :
    s.u.side = .back ∧ s.u.r = (v.conns a).r ∧
      ((v.reqs (v.conns a).r).uc = some u ∧ v.Live u ∧ (v.conns u).side = .back ∧
        (v.conns u).r = (v.conns a).r ∨ (v.reqs (v.conns a).r).uc = none ∧ ¬ v.Live u) := by
  rcases h.frame.back with ⟨huc, hside, hr, -⟩ | ⟨huc, hside, hr, -, hg⟩
  · have hold : (v.reqs (v.conns a).r).uc = some u := huc.symm.trans hu
    obtain ⟨hlive, hback, hr'⟩ := h.wired.up a u h.front hold
    rw [session_u hold] at hside hr
    exact ⟨hside.trans hback, hr.trans hr', .inl ⟨hold, hlive, hback, hr'⟩⟩
  · exact ⟨hside, hr, .inr ⟨huc, hg.fresh u hu⟩⟩

theorem Handled.up_ne (h : Handled v a s) : s.r.uc ≠ some a := by
  intro hu
  obtain ⟨-, -, ⟨-, -, hback, -⟩ | ⟨-, hnot⟩⟩ := h.up hu
  · rw [h.front.2] at hback
    cases hback
  · exact hnot h.front.1

theorem Handled.live (h : Handled v a s) (x : ConnAddr) :
    (v.store s).Live x ↔ s.r.uc = some x ∨ v.Live x := by
  show s.g.pool.Live x ↔ _
  rcases h.frame.back with ⟨huc, -, -, hg⟩ | ⟨-, -, -, -, hg⟩
  · rw [hg.live]
    constructor
    · rintro (h1 | h1)
      · cases h1
      · exact .inr h1
    · rintro (h1 | h1)
      · exact .inr (h.wired.up a x h.front (huc.symm.trans h1)).1
      · exact .inr h1
  · exact hg.live x

theorem store_conns_self (h : Handled v a s) : (v.store s).conns a = s.c := by
  unfold store
  cases hu : s.r.uc with
  | none => simp [h.c]
  | some u =>
      have hne : a ≠ u := fun e => h.up_ne (e ▸ hu)
      simp [h.c, hne]

theorem store_conns_up {u : ConnAddr} (hu : s.r.uc = some u) : (v.store s).conns u = s.u := by
  unfold store
  simp [hu]

theorem store_conns_ne (h : Handled v a s) {x : ConnAddr} (hx : x ≠ a) (hu : s.r.uc ≠ some x) :
    (v.store s).conns x = v.conns x := by
  unfold store
  cases hu' : s.r.uc with
  | none => simp [h.c, hx]
  | some u =>
      have hne : x ≠ u := fun e => hu (e ▸ hu')
      simp [h.c, hx, hne]

theorem store_reqs_self (h : Handled v a s) : (v.store s).reqs (v.conns a).r = s.r := by
  rw [← h.self]
  simp [store]

theorem store_reqs_ne (h : Handled v a s) {q : ReqAddr} (hq : q ≠ (v.conns a).r) :
    (v.store s).reqs q = v.reqs q := by
  rw [← h.self] at hq
  simp [store, hq]

/-- Two front connections have different requests. -/
theorem Wired.front_inj (hw : v.Wired) {b : ConnAddr} (ha : v.Front a) (hb : v.Front b)
    (hr : (v.conns b).r = (v.conns a).r) : b = a := by
  rw [← (hw.front a ha).2, ← hr, (hw.front b hb).2]

/-- Neither connection of the session is the front connection `b`. -/
theorem Handled.front_ne (h : Handled v a s) {b : ConnAddr} (hb : v.Front b) : s.r.uc ≠ some b := by
  intro hu
  obtain ⟨-, -, ⟨-, -, hback, -⟩ | ⟨-, hnot⟩⟩ := h.up hu
  · rw [hb.2] at hback
    cases hback
  · exact hnot hb.1

/-- The front connections are the same. -/
theorem store_front (h : Handled v a s) (b : ConnAddr) : (v.store s).Front b ↔ v.Front b := by
  by_cases hba : b = a
  · subst hba
    have hside : s.c.side = .front :=
      h.frame.side.trans ((congrArg Connection.side h.session_c).trans h.front.2)
    refine iff_of_true ⟨(h.live b).mpr (.inr h.front.1), ?_⟩ h.front
    rw [store_conns_self h]
    exact hside
  by_cases hu : s.r.uc = some b
  · refine iff_of_false (fun hf => ?_) fun hf => h.front_ne hf hu
    have hside := hf.2
    rw [store_conns_up hu, (h.up hu).1] at hside
    cases hside
  · unfold Front
    rw [h.live, store_conns_ne h hba hu]
    simp [hu]

/-- **Another session is not touched.** -/
theorem store_aside (h : Handled v a s) {b : ConnAddr} (hb : v.Front b) (hba : b ≠ a) :
    Aside v (v.store s) b := by
  have hq : (v.conns b).r ≠ (v.conns a).r := fun e => hba (h.wired.front_inj h.front hb e)
  have hconns := store_conns_ne h hba (h.front_ne hb)
  refine ⟨hb, hconns, session_eq (store_reqs_ne h hq) ?_ (fun u hu => ?_) ?_⟩
  · rw [(h.wired.front b hb).2]
    exact hconns
  · -- the upstream connection of `b` belongs to another request
    obtain ⟨hlive, hback, hr⟩ := h.wired.up b u hb hu
    refine store_conns_ne h (fun e => ?_) fun e => ?_
    · rw [e, h.front.2] at hback
      cases hback
    · obtain ⟨-, -, ⟨-, -, -, hr'⟩ | ⟨-, hnot⟩⟩ := h.up e
      · exact hq (hr.symm.trans hr')
      · exact hnot hlive
  · rw [← h.self] at hq
    simp [store, hq]

/-- **The session itself is what the handler left.** -/
theorem store_session (h : Handled v a s) (htidy : s.r.uc = none → s.u = .unset) :
    (v.store s).session (v.conns a).r = s := by
  have hr := store_reqs_self h
  have hlog : (v.store s).log (v.conns a).r = s.log := by
    rw [← h.self]
    simp [store]
  unfold session
  rw [hr, hlog, h.c, store_conns_self h]
  cases hu : s.r.uc with
  | none =>
      rw [← htidy hu, ← h.self]
      rfl
  | some u =>
      simp only [store_conns_up hu]
      rw [← h.self]
      rfl

/-- Writing a session back keeps the pointers. -/
theorem wired_store (h : Handled v a s) : (v.store s).Wired where
  pool := h.frame.pool
  reqPool := h.wired.reqPool
  front b hb := by
    have hb' := (store_front h b).mp hb
    by_cases hba : b = a
    · subst hba
      have hr : s.c.r = (v.conns b).r := h.frame.cr.trans (congrArg Connection.r h.session_c)
      rw [store_conns_self h, hr, store_reqs_self h]
      exact ⟨(h.wired.front b hb').1, h.c⟩
    · have haside := store_aside h hb' hba
      have hq : (v.conns b).r ≠ (v.conns a).r := fun e => hba (h.wired.front_inj h.front hb' e)
      rw [haside.conns, store_reqs_ne h hq]
      exact h.wired.front b hb'
  back b hb hside := by
    have hfront := fun f => store_front h f
    by_cases hu : s.r.uc = some b
    · have hr : s.c.r = (v.conns a).r := h.frame.cr.trans (congrArg Connection.r h.session_c)
      refine ⟨a, (hfront a).mpr h.front, ?_, ?_⟩
      · rw [store_conns_self h, store_conns_up hu, hr, (h.up hu).2.1]
      · rw [store_conns_up hu, (h.up hu).2.1, store_reqs_self h]
        exact hu
    · have hba : b ≠ a := by
        rintro rfl
        have := ((hfront b).mpr h.front).2
        rw [hside] at this
        cases this
      have hlive : v.Live b := ((h.live b).mp hb).resolve_left hu
      rw [store_conns_ne h hba hu] at hside ⊢
      obtain ⟨f, hf, hr, huc⟩ := h.wired.back b hlive hside
      have hfa : f ≠ a := by
        rintro rfl
        rcases h.frame.back with ⟨hsame, -⟩ | ⟨hnone, -⟩
        · exact hu (hsame.trans (hr ▸ huc))
        · have hnone : (v.reqs (v.conns f).r).uc = none := hnone
          rw [hr, huc] at hnone
          cases hnone
      have hq : (v.conns b).r ≠ (v.conns a).r := fun e =>
        hfa (h.wired.front_inj h.front hf (hr.trans e))
      refine ⟨f, (hfront f).mpr hf, ?_, ?_⟩
      · rw [(store_aside h hf hfa).conns, hr]
      · rw [store_reqs_ne h hq]
        exact huc
  up b u hb hu := by
    have hb' := (store_front h b).mp hb
    by_cases hba : b = a
    · subst hba
      have hr : s.c.r = (v.conns b).r := h.frame.cr.trans (congrArg Connection.r h.session_c)
      rw [store_conns_self h, hr, store_reqs_self h] at hu
      obtain ⟨hside, hur, -⟩ := h.up hu
      rw [store_conns_up hu, store_conns_self h, h.live]
      exact ⟨.inl hu, hside, hur.trans hr.symm⟩
    · have haside := store_aside h hb' hba
      have hq : (v.conns b).r ≠ (v.conns a).r := fun e => hba (h.wired.front_inj h.front hb' e)
      rw [haside.conns, store_reqs_ne h hq] at hu
      obtain ⟨hlive, hback, hr⟩ := h.wired.up b u hb' hu
      have hua : u ≠ a := by
        rintro rfl
        rw [h.front.2] at hback
        cases hback
      have hus : s.r.uc ≠ some u := by
        intro e
        obtain ⟨-, -, ⟨-, -, -, hr'⟩ | ⟨-, hnot⟩⟩ := h.up e
        · exact hq (hr.symm.trans hr')
        · exact hnot hlive
      rw [haside.conns, store_conns_ne h hua hus, h.live]
      exact ⟨.inr hlive, hback, hr⟩

end store

/-! ### Connections are closed -/

section close

variable {v v' : Server} {a : ConnAddr}

/-- What closing a connection leaves: the open connections, and the sessions of the others. -/
structure Closed (v : Server) (gone : ConnAddr → Prop) (v' : Server) : Prop where
  wired : v'.Wired
  live : ∀ x, v'.Live x ↔ v.Live x ∧ ¬ gone x
  conns : v'.conns = v.conns
  batch : v'.batch = v.batch
  dead : v'.dead = v.dead

theorem Closed.front {gone : ConnAddr → Prop} (h : Closed v gone v') (b : ConnAddr) :
    v'.Front b ↔ v.Front b ∧ ¬ gone b := by
  unfold Front
  rw [h.live, h.conns]
  tauto

/-- An upstream connection is closed: `r->uc` is `NULL`. -/
theorem closeBack_spec (hw : v.Wired) (ha : v.Live a) (hside : (v.conns a).side = .back)
    (h : v.closeBack a = .ok v') :
    Closed v (· = a) v' ∧
      v'.session (v.conns a).r = (v.session (v.conns a).r).dropUpstream.share v'.g ∧
      ∀ b, v.Front b → (v.conns b).r ≠ (v.conns a).r → Aside v v' b := by
  obtain ⟨g, hg, hv⟩ := bind_ok h
  obtain ⟨heap, -, rfl⟩ := closeBack_ok hg
  cases hv
  obtain ⟨hpool, hlive⟩ := Pool.release_spec hw.pool ha
  obtain ⟨f, hf, hfr, huc⟩ := hw.back a ha hside
  -- an upstream connection of another request is another connection
  have hother : ∀ b u, v.Front b → (v.conns b).r ≠ (v.conns a).r →
      (v.reqs (v.conns b).r).uc = some u → u ≠ a := by
    rintro b u hb hne hu rfl
    exact hne (hw.up b u hb hu).2.2.symm
  refine ⟨⟨?_, hlive, rfl, rfl, rfl⟩, ?_, fun b hb hne => ⟨hb, rfl, session_eq ?_ rfl (fun _ _ => rfl) rfl⟩⟩
  · refine ⟨hpool, hw.reqPool, fun b hb => ?_, fun b hb hbs => ?_, fun b u hb hu => ?_⟩
    · have hbv : v.Front b := ⟨((hlive b).mp hb.1).1, hb.2⟩
      obtain ⟨h1, h2⟩ := hw.front b hbv
      refine ⟨h1, ?_⟩
      by_cases hq : (v.conns b).r = (v.conns a).r
      · dsimp only
        rw [hq, Function.update_self, ← hq]
        exact h2
      · dsimp only
        rw [Function.update_of_ne hq]
        exact h2
    · obtain ⟨hbl, hba⟩ := (hlive b).mp hb
      obtain ⟨f', hf', hr', huc'⟩ := hw.back b hbl hbs
      have hq : (v.conns b).r ≠ (v.conns a).r := fun e => by
        rw [e, huc] at huc'
        exact hba (Option.some.inj huc').symm
      refine ⟨f', ⟨(hlive f').mpr ⟨hf'.1, ?_⟩, hf'.2⟩, hr', ?_⟩
      · rintro rfl
        have := hf'.2.symm.trans hside
        cases this
      · dsimp only
        rw [Function.update_of_ne hq]
        exact huc'
    · have hbv : v.Front b := ⟨((hlive b).mp hb.1).1, hb.2⟩
      by_cases hq : (v.conns b).r = (v.conns a).r
      · dsimp only at hu
        rw [hq, Function.update_self] at hu
        cases hu
      · dsimp only at hu ⊢
        rw [Function.update_of_ne hq] at hu
        obtain ⟨h1, h2, h3⟩ := hw.up b u hbv hu
        exact ⟨(hlive u).mpr ⟨h1, hother b u hbv hq hu⟩, h2, h3⟩
  · unfold session Session.dropUpstream Session.share
    simp only [Function.update_self]
  · dsimp only
    rw [Function.update_of_ne hne]

/-- A front connection without an upstream, and its request, are given back. -/
theorem release_spec {q : ReqAddr} (hw : v.Wired) (ha : v.Front a) (hq : (v.conns a).r = q)
    (huc : (v.reqs q).uc = none) (l : List ConnAddr) :
    Closed v (· = a) { v with
      reqPool := v.reqPool.release q, g := { v.g with pool := v.g.pool.release a }, condemned := l } := by
  subst hq
  obtain ⟨hpool, hlive⟩ := Pool.release_spec hw.pool ha.1
  obtain ⟨hreqPool, hreqLive⟩ := Pool.release_spec hw.reqPool (hw.front a ha).1
  refine ⟨⟨hpool, hreqPool, fun b hb => ?_, fun b hb hbs => ?_, fun b u hb hu => ?_⟩, hlive, rfl, rfl, rfl⟩
  · obtain ⟨hbl, hba⟩ := (hlive b).mp hb.1
    obtain ⟨h1, h2⟩ := hw.front b ⟨hbl, hb.2⟩
    exact ⟨(hreqLive _).mpr ⟨h1, fun e => hba (hw.front_inj ha ⟨hbl, hb.2⟩ e)⟩, h2⟩
  · obtain ⟨hbl, -⟩ := (hlive b).mp hb
    obtain ⟨f, hf, hr, huc'⟩ := hw.back b hbl hbs
    refine ⟨f, ⟨(hlive f).mpr ⟨hf.1, ?_⟩, hf.2⟩, hr, huc'⟩
    rintro rfl
    rw [hr] at huc
    have := huc'.symm.trans huc
    cases this
  · obtain ⟨hbl, -⟩ := (hlive b).mp hb.1
    obtain ⟨h1, h2, h3⟩ := hw.up b u ⟨hbl, hb.2⟩ hu
    refine ⟨(hlive u).mpr ⟨h1, ?_⟩, h2, h3⟩
    rintro rfl
    have := ha.2.symm.trans h2
    cases this

/-- `sy_connection_unregister(c); close(c->fd);` -/
def shut (v : Server) (a : ConnAddr) (heap : Heap) : Server :=
  { v with g := { v.g with heap := heap }.closeFd (v.conns a).fd }

/-- The connection `a` and its request `q` are given back. -/
def freed (v : Server) (a : ConnAddr) (q : ReqAddr) : Server :=
  { v with
    reqPool := v.reqPool.release q
    g := { v.g with pool := v.g.pool.release a }
    condemned := v.condemned.filter (· ≠ a) }

/-- What `sy_close_connection` does on a front connection. -/
inductive CloseMove (v : Server) (a : ConnAddr) : Server → Prop
  | alone {heap : Heap} (hun : v.g.heap.unregister a = .ok heap)
      (huc : (v.reqs (v.conns a).r).uc = none) : CloseMove v a ((v.shut a heap).freed a (v.conns a).r)
  | upstream {heap : Heap} {u : ConnAddr} {v₁ : Server} (hun : v.g.heap.unregister a = .ok heap)
      (huc : (v.reqs (v.conns a).r).uc = some u) (hclose : (v.shut a heap).closeBack u = .ok v₁) :
      CloseMove v a (v₁.freed a (v.conns a).r)

theorem closeFront_move (h : v.closeFront a = .ok v') : CloseMove v a v' := by
  obtain ⟨heap, hun, h2⟩ := bind_ok h
  obtain ⟨v₁, h3, h4⟩ := bind_ok h2
  cases h4
  unfold closeUpstream at h3
  dsimp only at h3
  cases huc : (v.reqs (v.conns a).r).uc with
  | none =>
      rw [huc] at h3
      cases h3
      exact .alone hun huc
  | some u =>
      rw [huc] at h3
      exact .upstream hun huc h3

/-- A front connection is closed with its upstream. -/
theorem closeFront_spec (hw : v.Wired) (ha : v.Front a) (h : v.closeFront a = .ok v') :
    Closed v (fun x => x = a ∨ (v.reqs (v.conns a).r).uc = some x) v' ∧
      ∀ b, v.Front b → b ≠ a → Aside v v' b := by
  have hsame : ∀ heap, SameMemory v (v.shut a heap) := fun _ => ⟨rfl, rfl, rfl, rfl, rfl⟩
  have hne : ∀ b, v.Front b → b ≠ a → (v.conns b).r ≠ (v.conns a).r :=
    fun b hb hba e => hba (hw.front_inj ha hb e)
  cases closeFront_move h with
  | @alone heap hun huc =>
      have hsame := hsame heap
      have hc := release_spec (hsame.wired hw) ha rfl huc (v.condemned.filter (· ≠ a))
      refine ⟨⟨hc.wired, fun x => ?_, rfl, rfl, rfl⟩, fun b hb _ => ⟨hb, rfl, rfl⟩⟩
      refine (hc.live x).trans ?_
      rw [huc]
      simp [hsame.live]
  | @upstream heap u v₁ hun huc hclose =>
      have hsame := hsame heap
      obtain ⟨hul, hus, hur⟩ := hw.up a u ha huc
      obtain ⟨hc, hsess, haside⟩ := closeBack_spec (hsame.wired hw) ((hsame.live u).mpr hul) hus hclose
      have hconns : v₁.conns = v.conns := hc.conns
      have hau : a ≠ u := by
        rintro rfl
        have := ha.2.symm.trans hus
        cases this
      have ha₁ : v₁.Front a := (hc.front a).mpr ⟨(hsame.front a).mpr ha, hau⟩
      have huc₁ : (v₁.reqs (v.conns a).r).uc = none := by
        rw [← hur]
        exact congrArg (fun s => s.r.uc) hsess
      have hc₁ := release_spec hc.wired ha₁ (by rw [hconns]) huc₁ (v₁.condemned.filter (· ≠ a))
      refine ⟨⟨hc₁.wired, fun x => ?_, hc₁.conns.trans hconns, hc₁.batch.trans hc.batch,
        hc₁.dead.trans hc.dead⟩, fun b hb hba => ?_⟩
      · refine (hc₁.live x).trans ?_
        rw [hc.live, hsame.live, huc]
        simp only [Option.some.injEq, not_or, eq_comm (a := u)]
        tauto
      · have hother : (v.conns b).r ≠ (v.conns u).r := hur ▸ hne b hb hba
        have h1 := haside b ((hsame.front b).mpr hb) hother
        have h2 : Aside v (v.shut a heap) b := hsame.aside ((hsame.front b).mpr hb)
        have h3 := h2.trans h1
        exact ⟨hb, h3.conns, congrArg (Session.share · _) h3.session⟩

end close

/-! ### A connection is opened -/

section opening

variable {v v' : Server} {a : ConnAddr}

/-- A worker after `sy_open_connection`: the sessions there were, and perhaps a new one. -/
structure Opens (v v' : Server) : Prop where
  wired : v'.Wired
  batch : v'.batch = v.batch
  kept : ∀ x, v.Live x → v'.Live x ∧ v'.conns x = v.conns x
  sessions : ∀ b, v'.Front b →
    Aside v v' b ∨ ¬ v.Live b ∧ View.Init ⟨false, v'.session (v'.conns b).r⟩

/-- A new connection `a` and its request `q`, next to what there was. -/
structure SetUp (v v' : Server) (a : ConnAddr) (q : ReqAddr) : Prop where
  pool : v'.g.pool.Ok
  reqPool : v'.reqPool.Ok
  fresh : ¬ v.Live a
  unrequested : ¬ v.reqPool.Live q
  live : ∀ x, v'.Live x ↔ x = a ∨ v.Live x
  reqLive : ∀ x, v'.reqPool.Live x ↔ x = q ∨ v.reqPool.Live x
  conn : v'.conns a = ⟨(v'.conns a).fd, .front, true, false, q⟩
  conns : ∀ x, x ≠ a → v'.conns x = v.conns x
  req : v'.reqs q = requestInit (v.reqs q) a
  reqs : ∀ x, x ≠ q → v'.reqs x = v.reqs x
  newLog : v'.log q = []
  log : ∀ x, x ≠ q → v'.log x = v.log x
  batch : v'.batch = v.batch

theorem setUp_new (hw : v.Wired) (o : Opening) {v₁ : Server} (h : v.setUp o = (a, v₁)) :
    ∃ q, SetUp v v₁ a q := by
  obtain ⟨c, pool, hc⟩ : ∃ c pool, v.g.pool.alloc = (c, pool) := ⟨_, _, rfl⟩
  obtain ⟨q, reqPool, hq⟩ : ∃ q reqPool, v.reqPool.alloc = (q, reqPool) := ⟨_, _, rfl⟩
  unfold setUp at h
  rw [hc, hq] at h
  cases h
  obtain ⟨hok, hnew, hlive⟩ := Pool.alloc_spec hw.pool hc
  obtain ⟨hrok, hrnew, hrlive⟩ := Pool.alloc_spec hw.reqPool hq
  exact ⟨q, {
    pool := hok
    reqPool := hrok
    fresh := hnew
    unrequested := hrnew
    live := hlive
    reqLive := hrlive
    conn := by simp
    conns := fun x hx => Function.update_of_ne hx _ _
    req := Function.update_self _ _ _
    reqs := fun x hx => Function.update_of_ne hx _ _
    newLog := Function.update_self _ _ _
    log := fun x hx => Function.update_of_ne hx _ _
    batch := rfl }⟩

section setUp

variable {q : ReqAddr}

theorem SetUp.old (h : SetUp v v' a q) {x : ConnAddr} (hx : v.Live x) : v'.conns x = v.conns x :=
  h.conns x fun e => h.fresh (e ▸ hx)

theorem SetUp.conn_r (h : SetUp v v' a q) : (v'.conns a).r = q := by rw [h.conn]

/-- The front connections there were, and the new one. -/
theorem SetUp.front (h : SetUp v v' a q) {b : ConnAddr} : v'.Front b ↔ b = a ∨ v.Front b := by
  unfold Front
  rw [h.live]
  constructor
  · rintro ⟨rfl | hb, hside⟩
    · exact .inl rfl
    · rw [h.old hb] at hside
      exact .inr ⟨hb, hside⟩
  · rintro (rfl | ⟨hb, hside⟩)
    · exact ⟨.inl rfl, by rw [h.conn]⟩
    · rw [h.old hb]
      exact ⟨.inr hb, hside⟩

/-- The request of a connection there was is another. -/
theorem SetUp.request (h : SetUp v v' a q) (hw : v.Wired) {b : ConnAddr} (hb : v.Front b) :
    (v.conns b).r ≠ q := fun e => h.unrequested (e ▸ (hw.front b hb).1)

theorem SetUp.wired (h : SetUp v v' a q) (hw : v.Wired) : v'.Wired where
  pool := h.pool
  reqPool := h.reqPool
  front b hb := by
    rcases h.front.mp hb with rfl | hbv
    · rw [h.conn_r, h.req, h.reqLive]
      exact ⟨.inl rfl, rfl⟩
    · rw [h.old hbv.1, h.reqs _ (h.request hw hbv), h.reqLive]
      exact ⟨.inr (hw.front b hbv).1, (hw.front b hbv).2⟩
  back b hb hside := by
    rcases (h.live b).mp hb with rfl | hbv
    · rw [h.conn] at hside
      cases hside
    · rw [h.old hbv] at hside ⊢
      obtain ⟨f, hf, hr, huc⟩ := hw.back b hbv hside
      refine ⟨f, h.front.mpr (.inr hf), ?_, ?_⟩
      · rw [h.old hf.1]
        exact hr
      · rw [← hr, h.reqs _ (h.request hw hf), hr]
        exact huc
  up b u hb hu := by
    rcases h.front.mp hb with rfl | hbv
    · rw [h.conn_r, h.req] at hu
      cases hu
    · rw [h.old hbv.1] at hu ⊢
      rw [h.reqs _ (h.request hw hbv)] at hu
      obtain ⟨h1, h2, h3⟩ := hw.up b u hbv hu
      rw [h.old h1]
      exact ⟨(h.live u).mpr (.inr h1), h2, h3⟩

theorem SetUp.init (h : SetUp v v' a q) : View.Init ⟨false, v'.session (v'.conns a).r⟩ := by
  have hc : (v'.reqs q).c = a := by rw [h.req]; rfl
  rw [h.conn_r]
  refine ⟨rfl, ⟨v.reqs q, a, h.req⟩, ?_, ?_, h.newLog⟩
  · show (v'.conns (v'.reqs q).c).evOut = false
    rw [hc, h.conn]
  · unfold session
    rw [h.req]
    rfl

theorem SetUp.aside (h : SetUp v v' a q) (hw : v.Wired) {b : ConnAddr} (hb : v.Front b) :
    Aside v v' b := by
  refine ⟨hb, h.old hb.1, session_eq (h.reqs _ (h.request hw hb)) ?_ (fun u hu => ?_) ?_⟩
  · rw [(hw.front b hb).2]
    exact h.old hb.1
  · exact h.old (hw.up b u hb hu).1
  · exact h.log _ (h.request hw hb)

end setUp

/-- The new connection and its request. -/
theorem setUp_spec (hw : v.Wired) (o : Opening) {v₁ : Server} (h : v.setUp o = (a, v₁)) :
    Opens v v₁ ∧ v₁.Front a ∧ ¬ v.Live a ∧ (v₁.reqs (v₁.conns a).r).uc = none := by
  obtain ⟨q, hnew⟩ := setUp_new hw o h
  refine ⟨⟨hnew.wired hw, hnew.batch, fun x hx => ?_, fun b hb => ?_⟩, hnew.front.mpr (.inl rfl),
    hnew.fresh, ?_⟩
  · exact ⟨(hnew.live x).mpr (.inr hx), hnew.old hx⟩
  · rcases hnew.front.mp hb with rfl | hbv
    · exact .inr ⟨hnew.fresh, hnew.init⟩
    · exact .inl (hnew.aside hw hbv)
  · rw [hnew.conn_r, hnew.req]
    rfl

/-- What is behind a change of the times is the same. -/
theorem Opens.same {v₁ : Server} (h : Opens v v₁) (hs : SameMemory v₁ v') (hb : v'.batch = v₁.batch) :
    Opens v v' := by
  refine ⟨hs.wired h.wired, hb.trans h.batch, fun x hx => ?_, fun b hbf => ?_⟩
  · obtain ⟨h1, h2⟩ := h.kept x hx
    exact ⟨(hs.live x).mpr h1, by rw [hs.conns, h2]⟩
  · rcases h.sessions b ((hs.front b).mp hbf) with h1 | ⟨h1, h2⟩
    · exact .inl (h1.trans (hs.aside hbf))
    · refine .inr ⟨h1, ?_⟩
      rw [hs.conns, hs.session]
      exact ⟨h2.pend, h2.request, h2.evOut, h2.back, h2.log⟩

/-- A connection just opened is closed again, or the worker dies of it. -/
theorem Opens.closed {v₁ : Server} (h : Opens v v₁) (ha : v₁.Front a) (hnew : ¬ v.Live a)
    (huc : (v₁.reqs (v₁.conns a).r).uc = none) : Opens v (v₁.settled (v₁.closeConnection a)) := by
  unfold closeConnection
  rw [ha.2]
  dsimp only
  cases hcl : v₁.closeFront a with
  | error f => exact h.same ⟨rfl, rfl, rfl, rfl, rfl⟩ rfl
  | ok v₂ =>
      obtain ⟨hc, haside⟩ := closeFront_spec h.wired ha hcl
      have hgone : ∀ x, x = a ∨ (v₁.reqs (v₁.conns a).r).uc = some x ↔ x = a := by
        intro x
        rw [huc]
        simp
      refine ⟨hc.wired, hc.batch.trans h.batch, fun x hx => ?_, fun b hb => ?_⟩
      · obtain ⟨h1, h2⟩ := h.kept x hx
        refine ⟨(hc.live x).mpr ⟨h1, fun hg => hnew ?_⟩, by rw [settled, hc.conns, h2]⟩
        rwa [← (hgone x).mp hg]
      · obtain ⟨hb₁, hg⟩ := (hc.front b).mp hb
        have hba : b ≠ a := fun e => hg ((hgone b).mpr e)
        have h1 := haside b hb₁ hba
        rcases h.sessions b hb₁ with h2 | ⟨h2, h3⟩
        · exact .inl (h2.trans h1)
        · refine .inr ⟨h2, ?_⟩
          show View.Init ⟨false, v₂.session (v₂.conns b).r⟩
          rw [h1.conns, h1.session]
          exact ⟨h3.pend, h3.request, h3.evOut, h3.back, h3.log⟩

/-- Only the heap changes. -/
theorem sameMemory_heap (v : Server) (heap : Heap) (refused : Bool) :
    SameMemory v { v with g := { v.g with heap := heap, refused := refused } } :=
  ⟨rfl, rfl, rfl, rfl, rfl⟩

/-- What `sy_open_connection` does behind the set-up of the connection `a`. -/
inductive OpenMove (v : Server) (a : ConnAddr) : Server → Prop
  | refused {heap : Heap} (hreg : v.g.heap.register a = (false, heap)) :
      OpenMove v a (settled { v with g := { v.g with refused := true } }
        (closeConnection { v with g := { v.g with refused := true } } a))
  | closed {heap : Heap} (hreg : v.g.heap.register a = (true, heap)) :
      OpenMove v a (settled { v with g := { v.g with heap := heap } }
        (closeConnection { v with g := { v.g with heap := heap } } a))
  | done {heap : Heap} (hreg : v.g.heap.register a = (true, heap)) :
      OpenMove v a { v with g := { v.g with heap := heap } }

theorem openConnection_move {o : Opening} {v₁ : Server} (hset : v.setUp o = (a, v₁)) :
    OpenMove v₁ a (v.openConnection o) := by
  obtain ⟨ok, heap, hreg⟩ : ∃ ok heap, v₁.g.heap.register a = (ok, heap) := ⟨_, _, rfl⟩
  unfold openConnection
  rw [hset]
  dsimp only
  rw [hreg]
  cases ok with
  | false => exact .refused hreg
  | true =>
      dsimp only
      split_ifs
      · exact .done hreg
      · exact .closed hreg

/-- **`sy_open_connection`.** -/
theorem openConnection_spec (hw : v.Wired) (o : Opening) : Opens v (v.openConnection o) := by
  obtain ⟨a, v₁, hset⟩ : ∃ a v₁, v.setUp o = (a, v₁) := ⟨_, _, rfl⟩
  obtain ⟨hopen, ha, hnew, huc⟩ := setUp_spec hw o hset
  have hm := openConnection_move hset
  generalize v.openConnection o = v' at hm ⊢
  cases hm with
  | refused =>
      have hs := sameMemory_heap v₁ v₁.g.heap true
      exact (hopen.same hs rfl).closed ((hs.front a).mpr ha) hnew huc
  | @closed heap =>
      have hs := sameMemory_heap v₁ heap v₁.g.refused
      exact (hopen.same hs rfl).closed ((hs.front a).mpr ha) hnew huc
  | @done heap => exact hopen.same (sameMemory_heap v₁ heap v₁.g.refused) rfl

end opening

end Server

end SyServer
