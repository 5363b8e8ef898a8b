import SyServer.Sessions

/-! # Open connections are the registered ones

As long as no registration was refused, `connections[1 .. heap_size]` holds the open connections,
each at the position it knows.  So the sweep finds an open connection at the root, and
`sy_connection_activate` and `sy_connection_expire` sift connections that are in the array.

`Retimed` is what a piece of the event loop does to the heap: the connections stay registered, and
`active_time` is written for the connections named only. -/

namespace SyServer

open Transition (Reach)

namespace Server

/-- The heap keeps track of the open connections, and only the connections in `touched` get
another time. -/
structure Retimed (v v' : Server) (touched : ConnAddr → Prop) : Prop where
  refused : v.g.refused = true → v'.g.refused = true
  tracks : v.g.Tracks → v'.g.Tracks
  time : ∀ x, v.Live x → ¬ touched x → v'.g.heap.time x = v.g.heap.time x

section retimed

variable {v v' v₁ : Server} {a : ConnAddr} {t t' : ConnAddr → Prop}

theorem Retimed.of_same (h : v'.g = v.g) : Retimed v v' t := by
  refine ⟨?_, ?_, ?_⟩
  all_goals rw [h]
  · exact id
  · exact id
  · exact fun _ _ _ => rfl

theorem Retimed.mono (h : Retimed v v' t) (hle : ∀ x, t x → t' x) : Retimed v v' t' :=
  ⟨h.refused, h.tracks, fun x hx hn => h.time x hx fun hx' => hn (hle x hx')⟩

/-- Two pieces, where what was open stays open. -/
theorem Retimed.trans (h : Retimed v v₁ t) (h' : Retimed v₁ v' t) (hlive : ∀ x, v.Live x → v₁.Live x) :
    Retimed v v' t where
  refused hr := h'.refused (h.refused hr)
  tracks ht := h'.tracks (h.tracks ht)
  time x hx hn := (h'.time x (hlive x hx) hn).trans (h.time x hx hn)

/-- A session is written back. -/
theorem store_retimed {s : Session} (h : Handled v a s) : Retimed v (v.store s) fun _ => False := by
  have hg : ∃ o, SharedFrame v.g o s.g := by
    rcases h.frame.back with ⟨-, -, -, hg⟩ | ⟨-, -, -, -, hg⟩
    · exact ⟨_, hg⟩
    · exact ⟨_, hg⟩
  obtain ⟨o, hg⟩ := hg
  exact ⟨hg.refused, hg.tracks, fun x hx _ => hg.time x hx⟩

/-- Another heap. -/
def retime (v : Server) (heap : Heap) : Server := { v with g := { v.g with heap := heap } }

/-- An operation that keeps the connections registered and writes one time. -/
structure OneTime (op : Heap → ConnAddr → Heap) : Prop where
  kept : ∀ h c, h.Indexed → h.Elem c → Heap.Kept h (op h c)
  time : ∀ h c x, x ≠ c → (op h c).time x = h.time x

theorem oneTime_activate (now : ℤ) : OneTime fun h c => h.activate now c where
  kept _ _ hi hc := Heap.activate_kept hi hc now
  time h c x hx := by rw [Heap.activate_time, Function.update_of_ne hx]

theorem oneTime_expire (timeout now : ℤ) : OneTime fun h c => h.expire timeout now c where
  kept _ _ hi hc := Heap.expire_kept hi hc timeout now
  time h c x hx := by rw [Heap.expire_time, Function.update_of_ne hx]

/-- Such an operation at an open connection. -/
theorem OneTime.retimed {op : Heap → ConnAddr → Heap} (hop : OneTime op) (ha : v.Live a) :
    Retimed v (v.retime (op v.g.heap a)) (· = a) where
  refused := id
  tracks ht hr := by
    obtain ⟨hi, helem⟩ := ht hr
    have hk := hop.kept _ _ hi ((helem a).mpr ha)
    exact ⟨hk.indexed, fun x => (hk.elem x).trans (helem x)⟩
  time x _ hx := hop.time _ _ x hx

/-- The connections whose times a handler of `a` is followed by. -/
def Touched (v : Server) (a x : ConnAddr) : Prop := x = a ∨ v.upstreamOf a = some x

theorem upstreamOf_live (hw : v.Wired) (ha : v.Live a) {u : ConnAddr} (hu : v.upstreamOf a = some u) :
    v.Live u ∧ (v.conns a).side = .front ∧ (v.conns u).side = .back := by
  unfold upstreamOf at hu
  cases hside : (v.conns a).side with
  | back =>
      rw [hside] at hu
      cases hu
  | front =>
      rw [hside] at hu
      obtain ⟨h1, h2, -⟩ := hw.up a u ⟨ha, hside⟩ hu
      exact ⟨h1, rfl, h2⟩

/-- Such operations at a connection and at its upstream. -/
theorem OneTime.retimed_both {op op' : Heap → ConnAddr → Heap} (hop : OneTime op) (hop' : OneTime op')
    (hw : v.Wired) (ha : v.Live a) :
    Retimed v (v.retime (match v.upstreamOf a with
      | some u => op' (op v.g.heap a) u
      | none => op v.g.heap a)) (v.Touched a) := by
  have hone : Retimed v _ (v.Touched a) := (hop.retimed ha).mono fun x hx => .inl hx
  cases hu : v.upstreamOf a with
  | none => exact hone
  | some u =>
      have hlive : (v.retime (op v.g.heap a)).Live u := (upstreamOf_live hw ha hu).1
      have htwo : Retimed _ _ (v.Touched a) := (hop'.retimed hlive).mono fun x hx => .inr (by rw [hx, hu])
      exact hone.trans htwo fun x hx => hx

/-- `sy_connection_activate`. -/
theorem activate_retimed (hw : v.Wired) (ha : v.Live a) (c : Clock) :
    Retimed v (v.activate c a) (v.Touched a) :=
  (oneTime_activate c.touch).retimed_both (oneTime_activate c.touchBack) hw ha

/-- `sy_connection_expire`. -/
theorem expire_retimed (hw : v.Wired) (ha : v.Live a) (timeout : ℤ) (c : Clock) :
    Retimed v (v.expire timeout c a) (v.Touched a) := by
  have h := (oneTime_expire timeout c.touch).retimed_both (oneTime_expire timeout c.touchBack) hw ha
  exact ⟨h.refused, h.tracks, h.time⟩

end retimed

/-! ### Closing and opening -/

section close

variable {v v' : Server} {a : ConnAddr}

/-- What closing the connection `a` does to the heap. -/
structure Unregistered (v : Server) (a : ConnAddr) (v' : Server) : Prop where
  indexed : v'.g.heap.Indexed
  size : v'.g.heap.size < v.g.heap.size
  elem : ∀ x, v'.g.heap.Elem x ↔ v.g.heap.Elem x ∧ ¬ v.Touched a x

theorem touched_back (hside : (v.conns a).side = .back) (x : ConnAddr) : v.Touched a x ↔ x = a := by
  unfold Touched upstreamOf
  rw [hside]
  simp

theorem closeBack_unregistered (hi : v.g.heap.Indexed) (ha : v.g.heap.Elem a)
    (hside : (v.conns a).side = .back) : ∃ v', v.closeBack a = .ok v' ∧ v.Unregistered a v' := by
  obtain ⟨heap, hun, hindexed, hsize, -, helem⟩ := Heap.unregister_spec hi ha
  obtain ⟨h1, hk, -⟩ := hi.conns_idx ha
  have hg : v.g.closeBack a (v.conns a).fd =
      .ok { v.g.closeFd (v.conns a).fd with pool := v.g.pool.release a, heap := heap } := by
    unfold Shared.closeBack
    rw [hun]
    rfl
  refine ⟨{ v with
      g := { v.g.closeFd (v.conns a).fd with pool := v.g.pool.release a, heap := heap }
      reqs := Function.update v.reqs (v.conns a).r { v.reqs (v.conns a).r with uc := none }
      condemned := v.condemned.filter (· ≠ a) }, ?_, hindexed, ?_, fun x => ?_⟩
  · unfold closeBack
    rw [hg]
    rfl
  · show heap.size < v.g.heap.size
    omega
  · rw [touched_back hside]
    exact helem x

/-- `sy_close_connection` on a front connection, behind its first two lines. -/
theorem closeFront_eq {heap : Heap} (hun : v.g.heap.unregister a = .ok heap) :
    v.closeFront a = ((v.shut a heap).closeUpstream (v.conns a).r).map (·.freed a (v.conns a).r) := by
  unfold closeFront
  rw [hun]
  rfl

theorem upstreamOf_front (hside : (v.conns a).side = .front) :
    v.upstreamOf a = (v.reqs (v.conns a).r).uc := by
  unfold upstreamOf
  rw [hside]

theorem closeFront_unregistered (hi : v.g.heap.Indexed) (ha : v.g.heap.Elem a)
    (hside : (v.conns a).side = .front)
    (hup : ∀ u, v.upstreamOf a = some u → v.g.heap.Elem u ∧ (v.conns u).side = .back) :
    ∃ v', v.closeFront a = .ok v' ∧ v.Unregistered a v' := by
  obtain ⟨heap, hun, hindexed, hsize, -, helem⟩ := Heap.unregister_spec hi ha
  obtain ⟨h1, hk, -⟩ := hi.conns_idx ha
  have huc := upstreamOf_front hside
  rw [closeFront_eq hun]
  unfold closeUpstream
  cases hu : v.upstreamOf a with
  | none =>
      have hnone : ((v.shut a heap).reqs (v.conns a).r).uc = none := huc.symm.trans hu
      rw [hnone]
      refine ⟨_, rfl, hindexed, ?_, fun x => ?_⟩
      · show heap.size < v.g.heap.size
        omega
      · unfold Touched
        rw [hu]
        simp only [reduceCtorEq, or_false]
        exact helem x
  | some u =>
      have hsome : ((v.shut a heap).reqs (v.conns a).r).uc = some u := huc.symm.trans hu
      obtain ⟨hue, hus⟩ := hup u hu
      have hne : u ≠ a := by
        rintro rfl
        rw [hside] at hus
        cases hus
      obtain ⟨v₂, hclose, hun₂⟩ := closeBack_unregistered (v := v.shut a heap) hindexed
        ((helem u).mpr ⟨hue, hne⟩) hus
      rw [hsome]
      dsimp only
      rw [hclose]
      refine ⟨_, rfl, hun₂.indexed, ?_, fun x => ?_⟩
      · have hlt : v₂.g.heap.size < heap.size := hun₂.size
        show v₂.g.heap.size < v.g.heap.size
        omega
      · unfold Touched
        rw [hu, Option.some.injEq, eq_comm (a := u), not_or]
        refine (hun₂.elem x).trans ?_
        rw [touched_back (v := v.shut a heap) hus, show (v.shut a heap).g.heap.Elem x ↔ _ from helem x,
          and_assoc]

/-- Closing a connection gives it and its upstream back. -/
theorem closeConnection_closed (hw : v.Wired) (ha : v.Live a) (h : v.closeConnection a = .ok v') :
    Closed v (v.Touched a) v' := by
  unfold closeConnection at h
  have hgone : ∀ gone : ConnAddr → Prop, (∀ x, v.Touched a x ↔ gone x) → Closed v gone v' →
      Closed v (v.Touched a) v' := by
    intro gone hiff hc
    exact ⟨hc.wired, fun x => by rw [hc.live, hiff], hc.conns, hc.batch, hc.dead⟩
  cases hside : (v.conns a).side with
  | front =>
      rw [hside] at h
      refine hgone _ (fun x => ?_) (closeFront_spec hw ⟨ha, hside⟩ h).1
      unfold Touched upstreamOf
      rw [hside]
  | back =>
      rw [hside] at h
      refine hgone _ (fun x => ?_) (closeBack_spec hw ha hside h).1
      unfold Touched upstreamOf
      rw [hside]
      simp

/-- An open connection can be closed. -/
theorem closeConnection_unregistered (hw : v.Wired) (ht : v.g.Tracks) (hr : v.g.refused = false)
    (ha : v.Live a) : ∃ v', v.closeConnection a = .ok v' ∧ v.Unregistered a v' := by
  obtain ⟨hi, helem⟩ := ht hr
  unfold closeConnection
  cases hside : (v.conns a).side with
  | back => exact closeBack_unregistered hi ((helem a).mpr ha) hside
  | front =>
      refine closeFront_unregistered hi ((helem a).mpr ha) hside fun u hu => ?_
      obtain ⟨h1, -, h3⟩ := upstreamOf_live hw ha hu
      exact ⟨(helem u).mpr h1, h3⟩

/-- What closing does not write, and which connections it takes off the list. -/
structure ClosedFrame (v : Server) (gone : ConnAddr → Prop) (v' : Server) : Prop where
  refused : v'.g.refused = v.g.refused
  time : v'.g.heap.time = v.g.heap.time
  now : v'.now = v.now
  condemned : ∀ x, x ∈ v'.condemned ↔ x ∈ v.condemned ∧ ¬ gone x

theorem closeBack_frame (h : v.closeBack a = .ok v') : ClosedFrame v (· = a) v' := by
  obtain ⟨g, hg, hv⟩ := bind_ok h
  obtain ⟨heap, hun, rfl⟩ := closeBack_ok hg
  cases hv
  refine ⟨rfl, (Heap.unregister_frame hun).2.2, rfl, fun x => ?_⟩
  show x ∈ v.condemned.filter (· ≠ a) ↔ _
  rw [List.mem_filter, decide_eq_true_eq]

theorem closeConnection_frame (h : v.closeConnection a = .ok v') :
    ClosedFrame v (v.Touched a) v' := by
  unfold closeConnection at h
  cases hside : (v.conns a).side with
  | back =>
      rw [hside] at h
      obtain ⟨h1, h2, h3, h4⟩ := closeBack_frame h
      exact ⟨h1, h2, h3, fun x => by rw [h4, touched_back hside]⟩
  | front =>
      rw [hside] at h
      have hup := upstreamOf_front hside
      cases closeFront_move h with
      | alone hun huc =>
          refine ⟨rfl, (Heap.unregister_frame hun).2.2, rfl, fun x => ?_⟩
          unfold Touched
          rw [hup, huc]
          simp [List.mem_filter, shut, freed]
      | @upstream heap u v₂ hun huc hclose =>
          obtain ⟨h1, h2, h3, h4⟩ := closeBack_frame hclose
          refine ⟨h1, h2.trans (Heap.unregister_frame hun).2.2, h3, fun x => ?_⟩
          unfold Touched
          show x ∈ v₂.condemned.filter (· ≠ a) ↔ _
          rw [hup, huc, Option.some.injEq, eq_comm (a := u), not_or, List.mem_filter, decide_eq_true_eq, h4]
          show (x ∈ v.condemned ∧ _) ∧ _ ↔ _
          tauto

theorem closeConnection_retimed (hw : v.Wired) (ha : v.Live a) :
    Retimed v (v.settled (v.closeConnection a)) fun _ => False := by
  cases hclose : v.closeConnection a with
  | error f => exact .of_same rfl
  | ok v₁ =>
      have hframe := closeConnection_frame hclose
      refine ⟨fun hr => hframe.refused.trans hr, fun ht hr => ?_, fun x _ _ => congrFun hframe.time x⟩
      have hr' : v.g.refused = false := hframe.refused.symm.trans hr
      obtain ⟨v₂, hok, hun⟩ := closeConnection_unregistered hw ht hr' ha
      rw [hclose] at hok
      cases hok
      refine ⟨hun.indexed, fun x => ?_⟩
      rw [show (v.settled (.ok v₁)).g = v₁.g from rfl, hun.elem, (ht hr').2]
      exact ((closeConnection_closed hw ha hclose).live x).symm

/-- `sy_open_connection`. -/
theorem openConnection_retimed (hw : v.Wired) (o : Opening) :
    Retimed v (v.openConnection o) fun _ => False := by
  obtain ⟨a, v₁, hset⟩ : ∃ a v₁, v.setUp o = (a, v₁) := ⟨_, _, rfl⟩
  obtain ⟨hopen, ha, hnew, huc⟩ := setUp_spec hw o hset
  have hg : ∃ pool, v.g.pool.alloc = (a, pool) ∧
      v₁.g = { v.g.openFd o.fd with pool := pool, heap := v.g.heap.setTime a o.now } := by
    obtain ⟨c, pool, hc⟩ : ∃ c pool, v.g.pool.alloc = (c, pool) := ⟨_, _, rfl⟩
    unfold setUp at hset
    rw [hc] at hset
    cases hset
    exact ⟨pool, hc, rfl⟩
  obtain ⟨pool, halloc, hg⟩ := hg
  have htime : ∀ x, v.Live x → v₁.g.heap.time x = v.g.heap.time x := by
    intro x hx
    rw [hg]
    apply Heap.setTime_time_ne
    rintro rfl
    exact hnew hx
  -- the connection is registered
  have hin : ∀ {heap}, v₁.g.heap.register a = (true, heap) →
      Retimed v { v₁ with g := { v₁.g with heap := heap } } fun _ => False := by
    intro heap hreg
    have hdone : Opened v.g o.fd (some a) { v.g.openFd o.fd with pool := pool, heap := heap } :=
      .done (t := o.now) halloc (by rw [← hreg, hg])
    have hframe := hdone.frame hw.pool
    refine ⟨fun hr => by rw [hg]; exact hr, fun ht => ?_, fun x hx _ => hframe.time x hx⟩
    rw [hg]
    exact hframe.tracks ht
  have hm := openConnection_move hset
  generalize v.openConnection o = v' at hm ⊢
  cases hm with
  | refused =>
      -- the worker remembers that a registration was refused
      have hs := sameMemory_heap v₁ v₁.g.heap true
      have hclose := closeConnection_retimed (hs.wired hopen.wired) ((hs.live a).mpr ha.1)
      have hrefused := hclose.refused rfl
      refine ⟨fun _ => hrefused, fun _ hr => absurd (hrefused.symm.trans hr) (by simp), fun x hx hn => ?_⟩
      rw [hclose.time x ((hs.live x).mpr (hopen.kept x hx).1) hn]
      exact htime x hx
  | @closed heap hreg =>
      have hs := sameMemory_heap v₁ heap v₁.g.refused
      exact (hin hreg).trans (closeConnection_retimed (hs.wired hopen.wired) ((hs.live a).mpr ha.1))
        fun x hx => (hs.live x).mpr (hopen.kept x hx).1
  | done hreg => exact hin hreg

end close

/-! ### The steps of a worker -/

section run

variable {cfg : Config} {v v' : Server} {a : ConnAddr} {isIn : Bool} {e : Env} {l : Label}

/-- The clock of one of the two `if`s of the loop's body. -/
def clockOf : Label → Option Clock
  | .serveIn c _ | .serveOut c _ => some c
  | _ => none

/-- What a step of the worker is. -/
inductive Stepped (cfg : Config) (v : Server) : Label → Server → Prop
  | poll {items : List Item} (hbatch : v.batch = none) (hrep : v.Reportable items) :
      Stepped cfg v (.poll items) { v with batch := some items }
  | accept {rest : List Item} (o : Opening) (hbatch : v.batch = some (.listener :: rest)) :
      Stepped cfg v (.accept o) (v.openConnection o)
  | drop {l : Label} (items : List Item) (hruns : v.runs cfg l = none) :
      Stepped cfg v l { v with batch := some items }
  | skip {l : Label} {c : Clock} (items : List Item) (hclock : clockOf l = some c)
      (hruns : v.runs cfg l = none) :
      Stepped cfg v l { v with now := c.check, batch := some items }
  | handle {l : Label} {a : ConnAddr} {isIn : Bool} {c : Clock} {e : Env} (items : List Item)
      (hruns : v.runs cfg l = some (a, isIn, e)) (hclock : clockOf l = some c)
      (hexp : v.g.heap.isExpired cfg.timeout c.check a = false) :
      Stepped cfg v l { v.handle cfg isIn c e a with batch := some items }
  | sweep (now : ℤ) (hbatch : v.batch = some []) :
      Stepped cfg v (.sweep now) (v.sweepRound cfg now)

/-- An event that is set is skipped or handled. -/
theorem stepped_serve {c : Clock} (items : List Item) (hclock : clockOf l = some c)
    (hruns : v.runs cfg l = if v.g.heap.isExpired cfg.timeout c.check a then none else some (a, isIn, e)) :
    Stepped cfg v l { v.serve cfg isIn c e a with batch := some items } := by
  unfold serve
  by_cases hexp : v.g.heap.isExpired cfg.timeout c.check a = true
  · rw [if_pos hexp] at hruns ⊢
    exact .skip items hclock hruns
  · rw [if_neg hexp] at hruns ⊢
    exact .handle items hruns hclock (Bool.eq_false_of_not_eq_true hexp)

theorem step_cases (h : v.step cfg l = some v') : v.dead = none ∧ Stepped cfg v l v' := by
  obtain ⟨hdead, hnext⟩ := Option.ite_none_right_eq_some.mp h
  refine ⟨hdead, ?_⟩
  unfold next at hnext
  split at hnext
  · rename_i hv
    obtain ⟨hrep, hnext⟩ := Option.ite_none_right_eq_some.mp hnext
    cases hnext
    exact .poll hv hrep
  · rename_i hv
    cases hnext
    exact .accept _ hv
  · cases hnext
    exact .drop _ rfl
  · rename_i hv
    cases hnext
    exact stepped_serve _ rfl (by unfold runs; rw [hv])
  · rename_i hv
    cases hnext
    exact stepped_serve _ rfl (by unfold runs; rw [hv])
  · rename_i hv
    cases hnext
    exact .drop _ (by unfold runs; rw [hv])
  · rename_i hv
    cases hnext
    exact .sweep _ hv
  · cases hnext

/-- The connection whose handler a step runs is open, and its event is enabled. -/
theorem Sound.runs (hs : v.Sound) (h : v.runs cfg l = some (a, isIn, e)) :
    v.Live a ∧ Enabled (v.view (v.frontOf a)) isIn (v.conns a).side := by
  unfold Server.runs at h
  split at h
  · rename_i out rest hv
    split_ifs at h
    cases h
    have hmem : Item.conn a true out ∈ v.batch.getD [] := by
      rw [hv]
      exact List.mem_cons_self
    have hlive := hs.batched.live a true out hmem
    exact ⟨hlive, enabled_of_batch hs.wired hs.batched hv hlive (fun _ => ⟨out, List.mem_cons_self⟩)
      fun h => by cases h⟩
  · rename_i rest hv
    split_ifs at h
    cases h
    have hmem : Item.conn a false true ∈ v.batch.getD [] := by
      rw [hv]
      exact List.mem_cons_self
    have hlive := hs.batched.live a false true hmem
    exact ⟨hlive, enabled_of_batch hs.wired hs.batched hv hlive (fun h => by cases h)
      fun _ => ⟨false, List.mem_cons_self⟩⟩
  · cases h

/-- The session that the handler of a step leaves. -/
def left (cfg : Config) (v : Server) (a : ConnAddr) (isIn : Bool) (e : Env) : Session :=
  (handler cfg e (v.session (v.conns a).r) isIn (v.conns a).side).2

theorem Sound.handled (hs : v.Sound) (h : v.runs cfg l = some (a, isIn, e)) :
    Handled v (v.frontOf a) (v.left cfg a isIn e) := by
  obtain ⟨ha, hen⟩ := hs.runs h
  obtain ⟨hff, hfr, -, -⟩ := hs.wired.frontOf ha
  have hview : v.session (v.conns a).r = (v.view (v.frontOf a)).s := by
    show _ = v.session (v.conns (v.frontOf a)).r
    rw [hfr]
  obtain ⟨-, hframe, -, -⟩ := handler_step cfg (e := e) (hs.base _ hff) hs.wired.pool (v.conns a).side hen
  unfold left
  rw [hview]
  exact ⟨hs.wired, hff, hframe⟩

/-- Behind the handler only times are set. -/
theorem handle_same (c : Clock) :
    SameMemory (v.store (v.left cfg a isIn e)) (v.handle cfg isIn c e a) :=
  (finish_same cfg _ c.touchBack).1

/-- A handler and what follows it. -/
theorem handle_retimed (hs : v.Sound) (h : v.runs cfg l = some (a, isIn, e)) (c : Clock) :
    Retimed v (v.handle cfg isIn c e a) ((v.store (v.left cfg a isIn e)).Touched a) := by
  have hh := hs.handled h
  have hw := wired_store hh
  have hlive := (hh.live a).mpr (.inr (hs.runs h).1)
  have hstore : Retimed v _ ((v.store (v.left cfg a isIn e)).Touched a) :=
    (store_retimed hh).mono fun x hx => False.elim hx
  have hrest : ∀ err, Retimed (v.store (v.left cfg a isIn e))
      ((v.store (v.left cfg a isIn e)).finish cfg c a err)
      ((v.store (v.left cfg a isIn e)).Touched a) := by
    intro err
    unfold finish
    split
    · exact .of_same rfl
    · exact expire_retimed hw hlive _ _
    · exact activate_retimed hw hlive _
  have hboth := fun err => hstore.trans (hrest err) fun x hx => (hh.live x).mpr (.inr hx)
  exact ⟨(hboth _).refused, (hboth _).tracks, (hboth _).time⟩

theorem sweepRound_retimed (hs : v.Sound) (now : ℤ) :
    Retimed v (v.sweepRound cfg now) fun _ => False := by
  unfold sweepRound
  dsimp only
  split_ifs with hdue hlive
  · have h := closeConnection_retimed hs.wired hlive
    exact ⟨h.refused, h.tracks, h.time⟩
  · exact .of_same rfl
  · exact .of_same rfl

/-- A step keeps the open connections registered. -/
theorem step_tracks (hs : v.Sound) (ht : v.g.Tracks) (h : v.step cfg l = some v') : v'.g.Tracks := by
  cases (step_cases h).2 with
  | poll => exact ht
  | accept o => exact (openConnection_retimed hs.wired o).tracks ht
  | drop => exact ht
  | skip => exact ht
  | handle items hruns => exact (handle_retimed hs hruns _).tracks ht
  | sweep now => exact (sweepRound_retimed hs now).tracks ht

theorem Init.tracks (h : v.Init) : v.g.Tracks := by
  refine fun _ => ⟨fun j h1 hj => ?_, fun x => iff_of_false ?_ (h.closed x)⟩
  · have := h.heap
    omega
  · rintro ⟨j, h1, hj, -⟩
    have := h.heap
    omega

/-- **As long as no registration was refused, the open connections are the registered ones.** -/
theorem Reached.tracks {good : Server → Label → Prop} (h : Reached cfg good v) : v.g.Tracks :=
  h.invariant_of (fun _ => Reached.sound) (fun v => v.g.Tracks) (fun _ => Init.tracks)
    fun _ _ _ hs ht _ hstep => step_tracks hs ht hstep

end run

end Server

end SyServer
