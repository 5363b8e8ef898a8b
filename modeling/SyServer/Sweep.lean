import SyServer.HeapOrder
import SyServer.Deaths

/-! # What a sweep closes

`sy_connection_sweep` under a clock that stands still.  The sweep looks at the root only, so it
relies on the connections that are overdue being on top of the heap (`OverdueFirst`).  Closing the
connection at the root keeps that; closing its upstream, somewhere in the array, moves the last
connection there and sifts it down only.  When the last one is overdue and the parent of the freed
position is not, it stays hidden below that parent (`Strands`).

* `overdueFirst_iff`: a round that closes a connection keeps the overdue ones on top exactly when
  it does not strand one.
* `Swept.round`, `swept_loop`: what the rounds keep, whatever the order.
* `sweep_complete`: without stranding, a sweep closes what is overdue, the upstream connections of
  the front connections it closes, and nothing else. -/

namespace SyServer

open HoleHeap

namespace Heap

/-- `t >= c->active_time + server_cfg.timeout`. -/
def Overdue (h : Heap) (timeout now : ℤ) (c : ConnAddr) : Prop := now ≥ h.time c + timeout

instance (h : Heap) (timeout now : ℤ) (c : ConnAddr) : Decidable (h.Overdue timeout now c) :=
  inferInstanceAs (Decidable (_ ≥ _))

/-- A connection that is not overdue. -/
def fresh (h : Heap) (timeout now : ℤ) (c : ConnAddr) : Bool := now < h.time c + timeout

/-- The parent of an overdue connection is overdue. -/
def OverdueFirst (h : Heap) (timeout now : ℤ) : Prop := Ordered (h.fresh timeout now) h.size h.conns

variable {h h' : Heap} {timeout now : ℤ} {c : ConnAddr}

theorem fresh_le_iff {x y : ConnAddr} :
    h.fresh timeout now x ≤ h.fresh timeout now y ↔
      (h.Overdue timeout now y → h.Overdue timeout now x) := by
  unfold fresh Overdue
  rw [Bool.le_iff_imp, decide_eq_true_eq, decide_eq_true_eq]
  omega

theorem coarser_fresh (h : Heap) (timeout now : ℤ) : h.Coarser (h.fresh timeout now) := by
  intro x y hle
  rw [fresh_le_iff]
  unfold Overdue
  omega

theorem Sorted.overdueFirst (hs : h.Sorted) (timeout now : ℤ) : h.OverdueFirst timeout now :=
  fun k h2 hk => h.coarser_fresh timeout now _ _ (hs k h2 hk)

/-- Behind a root that is not overdue nothing is. -/
theorem OverdueFirst.root (ho : h.OverdueFirst timeout now)
    (hroot : ¬ h.Overdue timeout now (h.conns 1)) (hc : h.Elem c) : ¬ h.Overdue timeout now c := by
  obtain ⟨j, h1, hj, rfl⟩ := hc
  intro hover
  exact hroot (fresh_le_iff.mp (Ordered.root_le ho h1 hj) hover)

/-- Unregistering `c` hides the last connection, which is overdue, below one that is not. -/
def Hides (h : Heap) (timeout now : ℤ) (c : ConnAddr) : Prop :=
  2 ≤ h.idx c ∧ h.idx c < h.size ∧ h.Overdue timeout now (h.conns h.size) ∧
    ¬ h.Overdue timeout now (h.conns (h.idx c / 2))

instance (h : Heap) (timeout now : ℤ) (c : ConnAddr) : Decidable (h.Hides timeout now c) :=
  inferInstanceAs (Decidable (_ ∧ _ ∧ _ ∧ _))

/-- `sy_connection_unregister` keeps the overdue connections on top exactly when it hides none. -/
theorem unregister_overdueFirst (ho : h.OverdueFirst timeout now) (hi : h.Indexed) (hc : h.Elem c)
    (hun : h.unregister c = .ok h') : h'.OverdueFirst timeout now ↔ ¬ h.Hides timeout now c := by
  have hiff := unregister_ordered_iff (h.coarser_fresh timeout now) ho hi hc
  simp only [hun, Except.ok.injEq, exists_eq_left', fresh_le_iff] at hiff
  have htime : h'.fresh timeout now = h.fresh timeout now := by
    unfold fresh
    rw [(unregister_frame hun).2.2]
  unfold OverdueFirst Hides
  rw [htime, hiff]
  tauto

/-- The connection at the root hides nothing. -/
theorem not_hides_root (hi : h.Indexed) (hpos : 0 < h.size) : ¬ h.Hides timeout now (h.conns 1) := by
  rintro ⟨h2, -⟩
  rw [hi 1 le_rfl hpos] at h2
  omega

end Heap

namespace Server

/-! ### The loop -/

/-- The sweep has not returned. -/
def Sweeping (v : Server) : Prop := v.dead = none ∧ v.batch = some []

instance (v : Server) : Decidable v.Sweeping := inferInstanceAs (Decidable (_ ∧ _))

/-- A round of the loop of `sy_connection_sweep`, if there is one more. -/
def sweepOnce (cfg : Config) (now : ℤ) (v : Server) : Server :=
  if v.Sweeping then v.sweepRound cfg now else v

/-- The worker behind at most `n` rounds in which `time(NULL)` answers `now`. -/
def sweepLoop (cfg : Config) (now : ℤ) (n : ℕ) (v : Server) : Server := (sweepOnce cfg now)^[n] v

/-- `sy_connection_sweep`: every round but the last closes a connection. -/
def sweep (v : Server) (cfg : Config) (now : ℤ) : Server := sweepLoop cfg now (v.g.heap.size + 1) v

/-- Connections in a heap: what is registered is open, and knows its position. -/
structure Stored (v : Server) : Prop where
  wired : v.Wired
  indexed : v.g.heap.Indexed
  elem : ∀ a, v.g.heap.Elem a ↔ v.Live a

/-- The next round closes a front connection, and then an upstream whose place hides an overdue
connection. -/
def Strands (cfg : Config) (now : ℤ) (v : Server) : Prop :=
  v.batch = some [] ∧ v.Due cfg now ∧
    ∃ u ∈ v.upstreamOf (v.g.heap.conns 1), ∃ heap ∈ (v.g.heap.unregister (v.g.heap.conns 1)).toOption,
      heap.Hides cfg.timeout now u

instance (cfg : Config) (now : ℤ) (v : Server) : Decidable (v.Strands cfg now) :=
  inferInstanceAs (Decidable (_ ∧ _ ∧ _))

section closing

variable {cfg : Config} {v v' : Server} {a : ConnAddr} {now : ℤ}

/-- The heap behind `sy_close_connection`: without the connection, and then without its upstream. -/
theorem closeConnection_heap (h : v.closeConnection a = .ok v') :
    ∃ heap, v.g.heap.unregister a = .ok heap ∧
      match v.upstreamOf a with
      | none => v'.g.heap = heap
      | some u => heap.unregister u = .ok v'.g.heap := by
  unfold closeConnection at h
  cases hside : (v.conns a).side with
  | back =>
      rw [hside] at h
      obtain ⟨g, hg, hv⟩ := bind_ok h
      obtain ⟨heap, hun, rfl⟩ := closeBack_ok hg
      cases hv
      refine ⟨heap, hun, ?_⟩
      unfold upstreamOf
      rw [hside]
  | front =>
      rw [hside] at h
      have hup := upstreamOf_front hside
      cases closeFront_move h with
      | alone hun huc =>
          refine ⟨_, hun, ?_⟩
          rw [hup, huc]
          rfl
      | upstream hun huc hclose =>
          refine ⟨_, hun, ?_⟩
          rw [hup, huc]
          obtain ⟨g, hg, hv⟩ := bind_ok hclose
          obtain ⟨heap', hun', rfl⟩ := closeBack_ok hg
          cases hv
          exact hun'

/-- A connection in the heap can be closed. -/
theorem Stored.close (hs : v.Stored) (ha : v.Live a) :
    ∃ v', v.closeConnection a = .ok v' ∧ v'.Stored ∧ v'.g.heap.size < v.g.heap.size := by
  have hex : ∃ v', v.closeConnection a = .ok v' ∧ v.Unregistered a v' := by
    unfold closeConnection
    cases hside : (v.conns a).side with
    | back => exact closeBack_unregistered hs.indexed ((hs.elem a).mpr ha) hside
    | front =>
        refine closeFront_unregistered hs.indexed ((hs.elem a).mpr ha) hside fun u hu => ?_
        obtain ⟨h1, -, h3⟩ := upstreamOf_live hs.wired ha hu
        exact ⟨(hs.elem u).mpr h1, h3⟩
  obtain ⟨v', hclose, hun⟩ := hex
  have hclosed := closeConnection_closed hs.wired ha hclose
  refine ⟨v', hclose, ⟨hclosed.wired, hun.indexed, fun x => ?_⟩, hun.size⟩
  rw [hun.elem, hs.elem, hclosed.live]

/-- The overdue connections are on top after a close exactly when the upstream hides none. -/
theorem Stored.close_overdueFirst {timeout : ℤ} (hs : v.Stored) (hpos : 0 < v.g.heap.size)
    (ho : v.g.heap.OverdueFirst timeout now)
    (hclose : v.closeConnection (v.g.heap.conns 1) = .ok v') :
    v'.g.heap.OverdueFirst timeout now ↔
      ¬ ∃ u ∈ v.upstreamOf (v.g.heap.conns 1),
        ∃ heap ∈ (v.g.heap.unregister (v.g.heap.conns 1)).toOption, heap.Hides timeout now u := by
  have hroot : v.g.heap.Elem (v.g.heap.conns 1) := ⟨1, le_rfl, hpos, rfl⟩
  obtain ⟨heap, hun, hrest⟩ := closeConnection_heap hclose
  obtain ⟨heap', hun', hi', -, -, helem'⟩ := Heap.unregister_spec hs.indexed hroot
  rw [hun] at hun'
  cases hun'
  have hfirst : heap.OverdueFirst timeout now :=
    (Heap.unregister_overdueFirst ho hs.indexed hroot hun).mpr (Heap.not_hides_root hs.indexed hpos)
  rw [hun]
  cases hu : v.upstreamOf (v.g.heap.conns 1) with
  | none =>
      rw [hu] at hrest
      rw [show v'.g.heap = heap from hrest]
      simp [hfirst]
  | some u =>
      rw [hu] at hrest
      obtain ⟨hul, hfront, hback⟩ := upstreamOf_live hs.wired ((hs.elem _).mp hroot) hu
      have hue : heap.Elem u := by
        refine (helem' u).mpr ⟨(hs.elem u).mpr hul, ?_⟩
        rintro rfl
        rw [hfront] at hback
        cases hback
      rw [Heap.unregister_overdueFirst hfirst hi' hue hrest]
      simp [Except.toOption]

end closing

/-! ### The rounds -/

section rounds

variable {cfg : Config} {v₀ v : Server} {now : ℤ}

/-- The connections of `v` that a sweep is to close. -/
def ToClose (cfg : Config) (now : ℤ) (v : Server) (a : ConnAddr) : Prop :=
  v.g.heap.Overdue cfg.timeout now a ∨
    ∃ f, v.Live f ∧ v.g.heap.Overdue cfg.timeout now f ∧ v.upstreamOf f = some a

/-- What the rounds of a sweep that began at `v₀` keep. -/
structure Swept (cfg : Config) (now : ℤ) (v₀ v : Server) : Prop where
  stored : v.Stored
  dead : v.dead = none
  conns : v.conns = v₀.conns
  time : v.g.heap.time = v₀.g.heap.time
  live : ∀ a, v.Live a → v₀.Live a
  closed : ∀ a, v₀.Live a → ¬ v.Live a → ToClose cfg now v₀ a

theorem Swept.refl (hs : v.Stored) (hd : v.dead = none) : Swept cfg now v v :=
  ⟨hs, hd, rfl, rfl, fun _ h => h, fun _ h hn => absurd h hn⟩

theorem Swept.front (h : Swept cfg now v₀ v) {a : ConnAddr} (ha : v.Front a) : v₀.Front a :=
  ⟨h.live a ha.1, h.conns ▸ ha.2⟩

/-- An upstream that is linked now was linked at the start. -/
theorem Swept.upstreamOf (h : Swept cfg now v₀ v) (hw : v₀.Wired) {f u : ConnAddr} (hf : v.Live f)
    (hu : v.upstreamOf f = some u) : v₀.upstreamOf f = some u := by
  obtain ⟨hul, hfront, hback⟩ := upstreamOf_live h.stored.wired hf hu
  have hf₀ := h.front ⟨hf, hfront⟩
  have huc : (v.reqs (v.conns f).r).uc = some u := (upstreamOf_front hfront).symm.trans hu
  obtain ⟨-, -, hr⟩ := h.stored.wired.up f u ⟨hf, hfront⟩ huc
  rw [h.conns] at hback hr
  obtain ⟨f', hf', hr', huc'⟩ := hw.back u (h.live u hul) hback
  have hff : f' = f := hw.front_inj hf₀ hf' (hr'.trans hr)
  rw [upstreamOf_front hf₀.2, ← hr]
  exact huc'

/-- A closed front connection has left no upstream behind. -/
theorem Swept.upstream_closed (h : Swept cfg now v₀ v) (hw : v₀.Wired) {f u : ConnAddr}
    (hf : v₀.Live f) (hu : v₀.upstreamOf f = some u) (hgone : ¬ v.Live f) : ¬ v.Live u := by
  intro hul
  obtain ⟨-, hfront, hback⟩ := upstreamOf_live hw hf hu
  have huc : (v₀.reqs (v₀.conns f).r).uc = some u := (upstreamOf_front hfront).symm.trans hu
  obtain ⟨-, -, hr⟩ := hw.up f u ⟨hf, hfront⟩ huc
  rw [← h.conns] at hback
  obtain ⟨f', hf', hr', -⟩ := h.stored.wired.back u hul hback
  have hff : f' = f := hw.front_inj ⟨hf, hfront⟩ (h.front hf') (by rw [← hr, ← h.conns, hr'])
  exact hgone (hff ▸ hf'.1)

/-- What a round does. -/
inductive Round (cfg : Config) (now : ℤ) (v₀ v v' : Server) : Prop
  | close (hdue : v.Due cfg now) (swept : Swept cfg now v₀ v') (sweeping : v'.Sweeping)
      (size : v'.g.heap.size < v.g.heap.size)
      (first : v.g.heap.OverdueFirst cfg.timeout now →
        (v'.g.heap.OverdueFirst cfg.timeout now ↔ ¬ v.Strands cfg now))
  | last (hdue : ¬ v.Due cfg now) (heq : v' = { v with batch := none, now := now })

/-- The sweep ends. -/
theorem Swept.ended (h : Swept cfg now v₀ v) :
    Swept cfg now v₀ { v with batch := none, now := now } := by
  have hsame : SameMemory v { v with batch := none, now := now } := ⟨rfl, rfl, rfl, rfl, rfl⟩
  obtain ⟨hs, hdead, hconns, htime, hlive, hclosed⟩ := h
  exact ⟨⟨hsame.wired hs.wired, hs.indexed, hs.elem⟩, hdead, hconns, htime, hlive, hclosed⟩

theorem sweepRound_eq (cfg : Config) (v : Server) (now : ℤ) :
    v.sweepRound cfg now =
      if v.Due cfg now then
        if v.Live (v.g.heap.conns 1) then
          { v.settled (v.closeConnection (v.g.heap.conns 1)) with now := now }
        else { v with dead := some .useAfterFree }
      else { v with batch := none, now := now } :=
  rfl

/-- **One round** closes a connection that is overdue, and its upstream, or ends the sweep. -/
theorem Swept.round (h : Swept cfg now v₀ v) (hw : v₀.Wired) (hgo : v.Sweeping) :
    Round cfg now v₀ v (v.sweepRound cfg now) := by
  rw [sweepRound_eq]
  by_cases hdue : v.Due cfg now
  · have hroot : v.Live (v.g.heap.conns 1) := (h.stored.elem _).mp ⟨1, le_rfl, hdue.1, rfl⟩
    obtain ⟨v', hclose, hs', hsize⟩ := h.stored.close hroot
    have hclosed := closeConnection_closed h.stored.wired hroot hclose
    have hframe := closeConnection_frame hclose
    have hsame : SameMemory v' { v' with now := now } := ⟨rfl, rfl, rfl, rfl, rfl⟩
    rw [if_pos hdue, if_pos hroot, hclose]
    refine .close hdue ⟨⟨hsame.wired hs'.wired, hs'.indexed, hs'.elem⟩, hclosed.dead.trans h.dead,
      hclosed.conns.trans h.conns, hframe.time.trans h.time, fun a ha => ?_, fun a ha hn => ?_⟩
      ⟨hclosed.dead.trans hgo.1, hclosed.batch.trans hgo.2⟩ hsize fun ho => ?_
    · exact h.live a ((hclosed.live a).mp ha).1
    · -- closed in this round or before
      by_cases hl : v.Live a
      · have htouched : v.Touched (v.g.heap.conns 1) a := by
          by_contra hnt
          exact hn ((hclosed.live a).mpr ⟨hl, hnt⟩)
        have hover : v₀.g.heap.Overdue cfg.timeout now (v.g.heap.conns 1) := by
          unfold Heap.Overdue
          rw [← h.time]
          exact hdue.2
        rcases htouched with rfl | hu
        · exact .inl hover
        · exact .inr ⟨_, h.live _ hroot, hover, h.upstreamOf hw hroot hu⟩
      · exact h.closed a ha hl
    · refine (h.stored.close_overdueFirst hdue.1 ho hclose).trans (not_congr ?_)
      exact ⟨fun hx => ⟨hgo.2, hdue, hx⟩, fun hx => hx.2.2⟩
  · rw [if_neg hdue]
    exact .last hdue rfl

theorem sweepLoop_succ (n : ℕ) (v : Server) :
    sweepLoop cfg now (n + 1) v = sweepOnce cfg now (sweepLoop cfg now n v) :=
  Function.iterate_succ_apply' _ _ _

/-- What the rounds keep, they keep together. -/
theorem Swept.loop (h : Swept cfg now v₀ v) (hw : v₀.Wired) (n : ℕ) :
    Swept cfg now v₀ (sweepLoop cfg now n v) := by
  induction n with
  | zero => exact h
  | succ n ih =>
      rw [sweepLoop_succ]
      unfold sweepOnce
      split_ifs with hgo
      · cases ih.round hw hgo with
        | close _ hswept => exact hswept
        | last _ heq =>
            rw [heq]
            exact ih.ended
      · exact ih

/-- A sweep that has returned stays where it is. -/
theorem sweepLoop_stop {k n : ℕ} (hstop : ¬ (sweepLoop cfg now k v).Sweeping) (hle : k ≤ n) :
    sweepLoop cfg now n v = sweepLoop cfg now k v := by
  induction n, hle using Nat.le_induction with
  | base => rfl
  | succ n _ ih =>
      rw [sweepLoop_succ, ih]
      exact if_neg hstop

/-- **The sweep returns**: there are fewer rounds than registered connections. -/
theorem Swept.returns (h : Swept cfg now v₀ v) (hw : v₀.Wired) (hgo : v.Sweeping) {n : ℕ}
    (hn : v.g.heap.size < n) :
    (sweepLoop cfg now n v).batch = none ∧ ¬ (sweepLoop cfg now n v).Due cfg now := by
  induction n generalizing v with
  | zero => omega
  | succ n ih =>
      have hstep : sweepLoop cfg now (n + 1) v = sweepLoop cfg now n (v.sweepRound cfg now) := by
        unfold sweepLoop
        rw [Function.iterate_succ_apply, sweepOnce, if_pos hgo]
      rw [hstep]
      cases h.round hw hgo with
      | close _ hswept hgo' hsize => exact ih hswept hgo' (by omega)
      | last hdue heq =>
          have hstop : ¬ (sweepLoop cfg now 0 (v.sweepRound cfg now)).Sweeping := by
            rw [heq]
            exact fun hs => by cases hs.2
          rw [sweepLoop_stop hstop (Nat.zero_le n)]
          show (v.sweepRound cfg now).batch = none ∧ ¬ (v.sweepRound cfg now).Due cfg now
          rw [heq]
          exact ⟨rfl, hdue⟩

/-- **The overdue connections** stay on top through the whole sweep exactly when no round strands
one. -/
theorem overdueFirst_iff (h : Swept cfg now v₀ v) (hw : v₀.Wired)
    (ho : v.g.heap.OverdueFirst cfg.timeout now) :
    (∀ n, (sweepLoop cfg now n v).g.heap.OverdueFirst cfg.timeout now) ↔
      ∀ n, ¬ (sweepLoop cfg now n v).Strands cfg now := by
  constructor
  · intro hall n hstrands
    have hgo : (sweepLoop cfg now n v).Sweeping := ⟨(h.loop hw n).dead, hstrands.1⟩
    have hnext := hall (n + 1)
    rw [sweepLoop_succ, sweepOnce, if_pos hgo] at hnext
    cases (h.loop hw n).round hw hgo with
    | close _ _ _ _ hfirst => exact (hfirst (hall n)).mp hnext hstrands
    | last hdue => exact hdue hstrands.2.1
  · intro hnone n
    induction n with
    | zero => exact ho
    | succ n ih =>
        rw [sweepLoop_succ, sweepOnce]
        split_ifs with hgo
        · cases (h.loop hw n).round hw hgo with
          | close _ _ _ _ hfirst => exact (hfirst ih).mpr (hnone n)
          | last _ heq =>
              rw [heq]
              exact ih
        · exact ih

/-- What a sweep is for: it returns, nothing that remains is overdue, and what it closed is what was
overdue, with the upstream connections of the front connections among them. -/
structure Complete (cfg : Config) (now : ℤ) (v v' : Server) : Prop where
  alive : v'.dead = none
  returned : v'.batch = none
  remaining : ∀ a, v'.g.heap.Elem a → ¬ v'.g.heap.Overdue cfg.timeout now a
  closed : ∀ a, v.Live a → (¬ v'.Live a ↔ ToClose cfg now v a)

/-- A sweep that ends with the overdue connections on top is complete. -/
theorem Stored.complete (hs : v.Stored) (hgo : v.Sweeping)
    (ho : (v.sweep cfg now).g.heap.OverdueFirst cfg.timeout now) :
    Complete cfg now v (v.sweep cfg now) := by
  have hstart : Swept cfg now v v := .refl hs hgo.1
  have hend := hstart.loop hs.wired (v.g.heap.size + 1)
  obtain ⟨hret, hdue⟩ := hstart.returns hs.wired hgo (Nat.lt_succ_self _)
  have hremain : ∀ a, (v.sweep cfg now).g.heap.Elem a →
      ¬ (v.sweep cfg now).g.heap.Overdue cfg.timeout now a := by
    intro a ha
    refine ho.root (fun hroot => hdue ⟨?_, hroot⟩) ha
    obtain ⟨j, h1, hj, -⟩ := ha
    exact h1.trans hj
  have hgone : ∀ a, v.g.heap.Overdue cfg.timeout now a → ¬ (v.sweep cfg now).Live a := by
    intro a hover hl
    refine hremain a ((hend.stored.elem a).mpr hl) ?_
    unfold Heap.Overdue at hover ⊢
    rw [show (v.sweep cfg now).g.heap.time = _ from hend.time]
    exact hover
  refine ⟨hend.dead, hret, hremain, fun a ha => ⟨hend.closed a ha, ?_⟩⟩
  rintro (hover | ⟨f, hf, hover, hu⟩)
  · exact hgone a hover
  · exact hend.upstream_closed hs.wired hf hu (hgone f hover)

end rounds

end Server

/-- **Sweep completeness**: in a heap in order the overdue connections stay on top through the whole
sweep exactly when no round strands one, and then the sweep is complete. -/
theorem sweep_complete {cfg : Config} {now : ℤ} {v : Server} (hs : v.Stored)
    (hsorted : v.g.heap.Sorted) (hgo : v.Sweeping) :
    ((∀ n, (Server.sweepLoop cfg now n v).g.heap.OverdueFirst cfg.timeout now) ↔
      ∀ n, ¬ (Server.sweepLoop cfg now n v).Strands cfg now) ∧
    ((∀ n, ¬ (Server.sweepLoop cfg now n v).Strands cfg now) →
      Server.Complete cfg now v (v.sweep cfg now)) := by
  have hiff := Server.overdueFirst_iff (.refl hs hgo.1) hs.wired (hsorted.overdueFirst cfg.timeout now)
  exact ⟨hiff, fun hnone => hs.complete hgo (hiff.mpr hnone _)⟩

namespace Server

/-- Thirteen connections, the upstream of the first one at position 4; the first, its right child
and what is below that one are overdue at second 60. -/
def thirteen : Server :=
  { boot with
    conns := fun a => ⟨a, if a = 4 then .back else .front, true, false, if a = 4 then 1 else a⟩
    reqs := fun q => { Request.zeroed with c := q, uc := if q = 1 then some 4 else none }
    reqPool := ⟨[0, 4], 14⟩
    g := ⟨⟨[0], 14⟩,
      ⟨id, 13, fun a => [5, -3, 5, -2, 5, 5, -1, 5, 5, 5, 5, 5, 0, 0].getD a 0, id⟩, false, []⟩
    batch := some [] }

theorem thirteen_live (a : ℕ) : thirteen.Live a ↔ 1 ≤ a ∧ a ≤ 13 := by
  have hlive : thirteen.Live a ↔ a < 14 ∧ ¬ a = 0 := by simp [thirteen, Live, Pool.Live]
  rw [hlive]
  omega

theorem thirteen_stored : thirteen.Stored where
  wired := by
    refine ⟨⟨by decide, by decide⟩, ⟨by decide, by decide⟩, fun a ha => ?_, fun a ha hs => ?_,
      fun a u ha hu => ?_⟩
    · obtain ⟨hl, hs⟩ := ha
      obtain ⟨h1, h13⟩ := (thirteen_live a).mp hl
      interval_cases a <;> revert hs <;> decide
    · obtain ⟨h1, h13⟩ := (thirteen_live a).mp ha
      refine ⟨1, by decide, ?_⟩
      interval_cases a <;> revert hs <;> decide
    · obtain ⟨hl, hs⟩ := ha
      obtain ⟨h1, h13⟩ := (thirteen_live a).mp hl
      obtain ⟨rfl, rfl⟩ : a = 1 ∧ u = 4 := by
        interval_cases a <;> revert hs hu <;> simp [thirteen, boot, eq_comm]
      decide
  indexed _ _ _ := rfl
  elem a := by
    rw [thirteen_live]
    exact ⟨fun ⟨j, h1, hj, e⟩ => e ▸ ⟨h1, hj⟩, fun h => ⟨a, h.1, h.2, rfl⟩⟩

theorem thirteen_sorted : thirteen.g.heap.Sorted := by
  intro k h2 hk
  have hk' : k ≤ 13 := hk
  interval_cases k <;> decide

end Server

/-- The connection 13 takes the place of the upstream, below one that is not overdue, and the sweep
does not find it. -/
theorem thirteen_incomplete :
    Server.thirteen.Stored ∧ Server.thirteen.g.heap.Sorted ∧ Server.thirteen.Sweeping ∧
      ¬ Server.Complete (serverConfig 60 []) 60 Server.thirteen
        (Server.thirteen.sweep (serverConfig 60 []) 60) := by
  refine ⟨Server.thirteen_stored, Server.thirteen_sorted, by decide, fun hc => ?_⟩
  have hleft := hc.remaining 13 (by decide +kernel)
  revert hleft
  decide +kernel

/-- An hour later everything is overdue, and everything is closed. -/
theorem sweep_complete_later :
    Server.Complete (serverConfig 60 []) 3600 Server.thirteen
      (Server.thirteen.sweep (serverConfig 60 []) 3600) := by
  refine (sweep_complete Server.thirteen_stored Server.thirteen_sorted (by decide)).2 fun n => ?_
  have hstop : ¬ (Server.sweepLoop (serverConfig 60 []) 3600 13 Server.thirteen).Sweeping := by
    decide +kernel
  rcases Nat.lt_or_ge n 13 with hn | hn
  · interval_cases n <;> decide +kernel
  · rw [Server.sweepLoop_stop hstop hn]
    decide +kernel

end SyServer
