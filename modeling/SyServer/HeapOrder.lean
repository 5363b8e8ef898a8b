import SyServer.Heap

/-! # The order of the timeout heap

When the operations keep `connections[1 .. heap_size]` a heap on `active_time`.

A sift restores the order in one direction: up if the connection is not above its children, down
if it is not below its parent.  Each operation sifts in one direction only, so each keeps the
order under a condition on the neighbours of the position it changes, and the conditions are
exact: where one fails, the connection stays where it is, against one neighbour.

* `shiftUpLoop_spec`, `shiftDownLoop_spec`: the sifts.
* `activate_sorted_iff`, `expire_sorted_iff`, `unregister_sorted_iff`, `register_sorted`: the
  operations; `unregister_ordered_iff` is about every coarser order (`Coarser`).
* `heapOrder_iff`: a run keeps the order exactly when all its steps meet their conditions. -/

namespace SyServer

open HoleHeap

namespace Heap

/-! ### The sifts -/

/-- **The way up**: an element that is not above its children finds its place. -/
theorem shiftUpLoop_spec {c : ConnAddr} (n : ℕ) {k : ℕ} {h : Heap} (h1 : 1 ≤ k)
    (hk : k ≤ h.size) (hn : k ≤ n) (ho : HoleOrdered h.time h.size h.conns k)
    (hb : ∀ j, Child h.size k j → h.time c ≤ h.time (h.conns j)) :
    Ordered h.time h.size
      (Function.update (shiftUpLoop c n k h).1.conns (shiftUpLoop c n k h).2 c) := by
  induction n generalizing k h with
  | zero => omega
  | succ n ih =>
      unfold shiftUpLoop
      dsimp only
      split_ifs with hpar hle
      · exact ho.fill (fun _ _ => hle) hb
      · exact ih (h := h.put k (h.conns (k / 2))) (by omega) (show k / 2 ≤ h.size by omega)
          (by omega) (ho.move_up (by omega) hk) (ho.below_up (not_le.mp hle).le)
      · exact ho.fill (fun h2 _ => absurd hpar (by omega)) hb

/-- A coarser order on the connections than that of their times. -/
def Coarser {κ : Type} [LinearOrder κ] (h : Heap) (key : ConnAddr → κ) : Prop :=
  ∀ x y, h.time x ≤ h.time y → key x ≤ key y

theorem coarser_time (h : Heap) : h.Coarser h.time := fun _ _ hle => hle

/-- **The way down**: an element that is not below its parent finds its place, in every coarser
order too. -/
theorem shiftDownLoop_spec {κ : Type} [LinearOrder κ] {key : ConnAddr → κ} {c : ConnAddr} (n : ℕ)
    {k : ℕ} {h : Heap} (hkey : h.Coarser key) (h1 : 1 ≤ k) (hn : h.size < k + n)
    (ho : HoleOrdered key h.size h.conns k)
    (ha : 2 ≤ k → k ≤ h.size → key (h.conns (k / 2)) ≤ key c) :
    Ordered key h.size
      (Function.update (shiftDownLoop c n k h).1.conns (shiftDownLoop c n k h).2 c) := by
  induction n generalizing k h with
  | zero =>
      refine ho.fill ha fun j hj => absurd hj.le ?_
      have := hj.parent
      omega
  | succ n ih =>
      unfold shiftDownLoop
      dsimp only
      split_ifs with hstop
      · refine ho.fill ha fun j hj => ?_
        have hle := kid_le_of_child hj
        have hlt := hstop.resolve_left (not_lt.mpr hle)
        exact hkey _ _ (hlt.le.trans ((kid_child h1 hle).2 j hj))
      · rw [not_or, not_lt, not_lt] at hstop
        obtain ⟨hc, hmin⟩ := kid_child h1 hstop.1
        have hgt := h.kid_gt h1
        refine ih (h := h.put k (h.conns (h.kid k))) hkey (by omega)
          (show h.size < h.kid k + n by omega)
          (ho.move_down hc fun j hj => hkey _ _ (hmin j hj)) fun _ _ => ?_
        show key (Function.update h.conns k (h.conns (h.kid k)) (h.kid k / 2)) ≤ key c
        rw [hc.parent, Function.update_self]
        exact hkey _ _ hstop.2

/-- The order of the array. -/
def Sorted (h : Heap) : Prop := Ordered h.time h.size h.conns

theorem shiftUp_sorted {h : Heap} {k : ℕ} (h1 : 1 ≤ k) (hk : k ≤ h.size)
    (hp : h.Placed k (h.conns k)) (ho : HoleOrdered h.time h.size h.conns k)
    (hb : ∀ j, Child h.size k j → h.time (h.conns k) ≤ h.time (h.conns j)) :
    (h.shiftUp k).Sorted := by
  have hr := shiftUp_rearranged h1 hk hp
  unfold Sorted
  rw [hr.size, hr.time, shiftUp_eq]
  exact shiftUpLoop_spec k h1 hk le_rfl ho hb

theorem shiftDown_ordered {κ : Type} [LinearOrder κ] {key : ConnAddr → κ} {h : Heap} {k : ℕ}
    (hkey : h.Coarser key) (h1 : 1 ≤ k) (hk : k ≤ h.size) (hp : h.Placed k (h.conns k))
    (ho : HoleOrdered key h.size h.conns k)
    (ha : 2 ≤ k → key (h.conns (k / 2)) ≤ key (h.conns k)) :
    Ordered key (h.shiftDown k).size (h.shiftDown k).conns := by
  rw [(shiftDown_rearranged h1 hk hp).size, shiftDown_eq]
  exact shiftDownLoop_spec h.size hkey h1 (by omega) ho fun h2 _ => ha h2

theorem shiftDown_sorted {h : Heap} {k : ℕ} (h1 : 1 ≤ k) (hk : k ≤ h.size)
    (hp : h.Placed k (h.conns k)) (ho : HoleOrdered h.time h.size h.conns k)
    (ha : 2 ≤ k → h.time (h.conns (k / 2)) ≤ h.time (h.conns k)) :
    (h.shiftDown k).Sorted := by
  have := shiftDown_ordered h.coarser_time h1 hk hp ho ha
  unfold Sorted
  rwa [shiftDown_time]

/-! ### The operations -/

variable {h : Heap} {c : ConnAddr}

/-- The order around `c` does not depend on its time. -/
theorem Sorted.hole_setTime (hs : h.Sorted) (hi : h.Indexed) (hc : h.Elem c) (t : ℤ) :
    HoleOrdered (h.setTime c t).time h.size h.conns (h.idx c) := by
  obtain ⟨h1, hk, hcc⟩ := hi.conns_idx hc
  refine (hs.hole (h.idx c)).congr_key fun j hj1 hj hjk => setTime_time_ne h t ?_
  have := (hi.placed h1 hk).other j hj1 hj hjk
  rwa [hcc] at this

/-- A neighbour of a registered connection keeps its time. -/
theorem Indexed.setTime_neighbour (hi : h.Indexed) (hc : h.Elem c) (t : ℤ) {j : ℕ} (hj1 : 1 ≤ j)
    (hj : j ≤ h.size) (hjk : j ≠ h.idx c) :
    (h.setTime c t).time (h.conns j) = h.time (h.conns j) := by
  obtain ⟨h1, hk, hcc⟩ := hi.conns_idx hc
  refine setTime_time_ne h t ?_
  have := (hi.placed h1 hk).other j hj1 hj hjk
  rwa [hcc] at this

/-- `sy_connection_activate` keeps the order exactly when the parent is not later than now. -/
theorem activate_sorted_iff (hs : h.Sorted) (hi : h.Indexed) (hc : h.Elem c) (now : ℤ) :
    (h.activate now c).Sorted ↔
      (2 ≤ h.idx c → h.time (h.conns (h.idx c / 2)) ≤ now) := by
  obtain ⟨h1, hk, hcc⟩ := hi.conns_idx hc
  have hpar : 2 ≤ h.idx c → (h.setTime c now).time (h.conns (h.idx c / 2)) =
      h.time (h.conns (h.idx c / 2)) := fun h2 =>
    hi.setTime_neighbour hc now (by omega) (by omega) (by omega)
  have hown : (h.setTime c now).time (h.conns (h.idx c)) = now := by rw [hcc]; simp
  constructor
  · intro hsort h2
    by_contra hlt
    rw [not_le] at hlt
    -- every child is later than the parent, so nothing moved
    have hstay : h.activate now c = (h.setTime c now).put (h.idx c) c := by
      have := shiftDown_stay (h := h.setTime c now) (k := h.idx c) (fun j hj => ?_) h1
      · rwa [setTime_conns, hcc] at this
      · have hj1 := hj.two_le
        have hjp := hj.parent
        rw [setTime_conns, hown, hi.setTime_neighbour hc now (by omega) hj.le (by omega)]
        exact hlt.trans_le ((hs.hole (h.idx c)).bridge h2 j hj)
    unfold Sorted at hsort
    rw [hstay] at hsort
    have := hsort.above_of_fill h2 hk
    rw [setTime_conns, put_time, hpar h2, setTime_time] at this
    exact absurd this (not_le.mpr hlt)
  · intro hcond
    refine shiftDown_sorted h1 hk ((setTime_indexed hi now).placed h1 hk)
      (hs.hole_setTime hi hc now) fun h2 => ?_
    rw [setTime_conns, hpar h2, hown]
    exact hcond h2

/-- `sy_connection_expire` keeps the order exactly when the new time is not later than the
children's. -/
theorem expire_sorted_iff (hs : h.Sorted) (hi : h.Indexed) (hc : h.Elem c) (timeout now : ℤ) :
    (h.expire timeout now c).Sorted ↔
      ∀ j, Child h.size (h.idx c) j → now - timeout - 1 ≤ h.time (h.conns j) := by
  obtain ⟨h1, hk, hcc⟩ := hi.conns_idx hc
  set t := now - timeout - 1 with ht
  have hkid : ∀ j, Child h.size (h.idx c) j →
      (h.setTime c t).time (h.conns j) = h.time (h.conns j) := fun j hj => by
    have := hj.two_le
    have := hj.parent
    exact hi.setTime_neighbour hc t (by omega) hj.le (by omega)
  have hown : (h.setTime c t).time (h.conns (h.idx c)) = t := by rw [hcc]; simp
  constructor
  · intro hsort j hj
    by_contra hlt
    rw [not_le] at hlt
    -- the parent is earlier than the child, so nothing moved
    have hstay : h.expire timeout now c = (h.setTime c t).put (h.idx c) c := by
      have := shiftUp_stay (h := h.setTime c t) (k := h.idx c) (fun h2 => ?_)
      · rwa [setTime_conns, hcc] at this
      · rw [setTime_conns, hown, hi.setTime_neighbour hc t (by omega) (by omega) (by omega)]
        exact ((hs.hole (h.idx c)).bridge h2 j hj).trans hlt.le
    unfold Sorted at hsort
    rw [hstay] at hsort
    have := hsort.below_of_fill h1 j hj
    rw [setTime_conns, put_time, hkid j hj, setTime_time] at this
    exact absurd this (not_le.mpr hlt)
  · intro hcond
    refine shiftUp_sorted h1 hk ((setTime_indexed hi t).placed h1 hk)
      (hs.hole_setTime hi hc t) fun j hj => ?_
    rw [setTime_conns, hkid j hj, hown]
    exact hcond j hj

/-- `sy_connection_register` of a new connection keeps the order. -/
theorem register_sorted (hs : h.Sorted) (hi : h.Indexed) (hc : ¬ h.Elem c) :
    (h.register c).2.Sorted := by
  by_cases hroom : h.size + 1 ≤ MAX_CONNECTION
  · rw [register_of_room hroom]
    have hnone : ∀ j, ¬ Child (h.size + 1) (h.size + 1) j := fun j hj => by
      have := hj.le
      have := hj.parent
      omega
    refine shiftUp_sorted (by omega) le_rfl ?_ ?_ fun j hj => absurd hj (hnone j)
    · rw [pushed_conns_last]
      exact pushed_placed hi hc
    · refine ⟨fun j h2 hj hjn hp => ?_, fun _ j hj => absurd hj (hnone j)⟩
      have hj' : j ≤ h.size := by have : j ≤ h.size + 1 := hj; omega
      rw [pushed_conns_lt h c hj', pushed_conns_lt h c (by omega)]
      exact hs j h2 hj'
  · unfold register
    rw [if_pos (by omega)]
    exact hs

/-- `sy_connection_unregister` keeps a coarser order exactly when the parent of the freed position
is not behind the last connection, which takes it. -/
theorem unregister_ordered_iff {κ : Type} [LinearOrder κ] {key : ConnAddr → κ} (hkey : h.Coarser key)
    (ho : Ordered key h.size h.conns) (hi : h.Indexed) (hc : h.Elem c) :
    (∃ h', h.unregister c = .ok h' ∧ Ordered key h'.size h'.conns) ↔
      (2 ≤ h.idx c → h.idx c < h.size → key (h.conns (h.idx c / 2)) ≤ key (h.conns h.size)) := by
  obtain ⟨h1, hk, hcc⟩ := hi.conns_idx hc
  have hri := replaced_indexed hi hc
  have hkey' : (h.replaced c).Coarser key := hkey
  rw [unregister_eq hi hc]
  simp only [Except.ok.injEq, exists_eq_left']
  have hole : HoleOrdered key (h.size - 1) (h.replaced c).conns (h.idx c) :=
    ((ho.mono (by omega)).hole (h.idx c)).congr fun j _ _ hjk => replaced_conns_ne h c hjk
  by_cases h0 : h.size - 1 > 0
  · rw [if_pos h0]
    by_cases hkn : h.idx c = h.size
    · refine iff_of_true ?_ fun _ hlt => absurd hlt (by omega)
      rw [hkn, replaced_shiftDown_last h c hkn]
      refine (ho.mono (by omega : h.size - 1 ≤ h.size)).congr fun j hj1 hj => ?_
      rw [put_conns, Function.update_of_ne (by omega), replaced_conns_ne h c (by omega)]
    · have hk' : h.idx c ≤ (h.replaced c).size := by show h.idx c ≤ h.size - 1; omega
      have hpar : 2 ≤ h.idx c → (h.replaced c).conns (h.idx c / 2) = h.conns (h.idx c / 2) :=
        fun h2 => replaced_conns_ne h c (by omega)
      constructor
      · intro hsort h2 hlt
        by_contra hgt
        rw [not_le] at hgt
        -- every child is later than the last connection, so nothing moved
        have hstay := shiftDown_stay (h := h.replaced c) (k := h.idx c) (fun j hj => by
          rw [replaced_conns_self]
          have hb := hole.bridge h2 j hj
          rw [hpar h2] at hb
          exact not_le.mp fun hle => absurd (hkey' _ _ hle) (not_le.mpr (hgt.trans_le hb))) h1
        rw [hstay, replaced_conns_self] at hsort
        have := hsort.above_of_fill h2 hk'
        rw [hpar h2] at this
        exact absurd this (not_le.mpr hgt)
      · intro hcond
        refine shiftDown_ordered hkey' h1 hk' (hri.placed h1 hk') hole fun h2 => ?_
        rw [hpar h2, replaced_conns_self]
        exact hcond h2 (by omega)
  · rw [if_neg h0]
    refine iff_of_true (fun k h2 hkk => ?_) fun h2 hlt => absurd hlt (by omega)
    have : k ≤ h.size - 1 := hkk
    omega

/-- `sy_connection_unregister` keeps the order exactly when the parent of the freed position is
not later than the last connection. -/
theorem unregister_sorted_iff (hs : h.Sorted) (hi : h.Indexed) (hc : h.Elem c) :
    (∃ h', h.unregister c = .ok h' ∧ h'.Sorted) ↔
      (2 ≤ h.idx c → h.idx c < h.size →
        h.time (h.conns (h.idx c / 2)) ≤ h.time (h.conns h.size)) := by
  rw [← unregister_ordered_iff h.coarser_time hs hi hc]
  refine exists_congr fun h' => and_congr_right fun hun => ?_
  rw [Sorted, (unregister_frame hun).2.2]

end Heap

/-! ### Runs -/

/-- A call on the heap; `sy_connection_activate` and `sy_connection_expire` of a front connection
with an upstream are two of them. -/
inductive HeapOp where
  | register (c : ConnAddr)
  | activate (c : ConnAddr)
  | expire (c : ConnAddr)
  | unregister (c : ConnAddr)
deriving DecidableEq, Repr

namespace HeapOp

/-- The call at time `now`; a connection is registered with `active_time = now`. -/
def apply (timeout now : ℤ) : HeapOp → Heap → Except Fault Heap
  | register c, h => .ok ((h.setTime c now).register c).2
  | activate c, h => .ok (h.activate now c)
  | expire c, h => .ok (h.expire timeout now c)
  | unregister c, h => h.unregister c

/-- New connections are registered; the other calls are made on registered ones. -/
def Allowed : HeapOp → Heap → Prop
  | register c, h => ¬ h.Elem c
  | activate c, h => h.Elem c
  | expire c, h => h.Elem c
  | unregister c, h => h.Elem c

instance (op : HeapOp) (h : Heap) : Decidable (op.Allowed h) := by
  cases op <;> unfold Allowed <;> infer_instance

/-- What the neighbours must be like for the order to survive the call. -/
def KeepsOrder (timeout now : ℤ) : HeapOp → Heap → Prop
  | register _, _ => True
  | activate c, h => 2 ≤ h.idx c → h.time (h.conns (h.idx c / 2)) ≤ now
  | expire c, h => ∀ j, Child h.size (h.idx c) j → now - timeout - 1 ≤ h.time (h.conns j)
  | unregister c, h => 2 ≤ h.idx c → h.idx c < h.size →
      h.time (h.conns (h.idx c / 2)) ≤ h.time (h.conns h.size)

end HeapOp

/-- A parent is never later than its children, and the first connection is an earliest one. -/
structure Heap.HeapOrder (h : Heap) : Prop where
  parent : ∀ k, 2 ≤ k → k ≤ h.size → h.time (h.conns (k / 2)) ≤ h.time (h.conns k)
  root : ∀ c, h.Elem c → h.time (h.conns 1) ≤ h.time c

theorem Heap.heapOrder_iff_sorted {h : Heap} : h.HeapOrder ↔ h.Sorted := by
  constructor
  · exact fun ho => ho.parent
  · intro hs
    refine ⟨hs, ?_⟩
    rintro c ⟨j, h1, hj, rfl⟩
    exact Ordered.root_le hs h1 hj

/-- The states of a run, the first one included. -/
def heapStates (timeout : ℤ) : Heap → List (HeapOp × ℤ) → List Heap
  | h, [] => [h]
  | h, (op, now) :: rest =>
      h :: match op.apply timeout now h with
        | .ok h' => heapStates timeout h' rest
        | .error _ => []

/-- The steps of a run: the state, the call and the time of each. -/
def heapSteps (timeout : ℤ) : Heap → List (HeapOp × ℤ) → List (Heap × HeapOp × ℤ)
  | _, [] => []
  | h, (op, now) :: rest =>
      (h, op, now) :: match op.apply timeout now h with
        | .ok h' => heapSteps timeout h' rest
        | .error _ => []

/-- A run of allowed calls under a clock that does not go back. -/
def ValidRun (timeout : ℤ) (h : Heap) (run : List (HeapOp × ℤ)) : Prop :=
  (run.map Prod.snd).Pairwise (· ≤ ·) ∧ ∀ x ∈ heapSteps timeout h run, x.2.1.Allowed x.1

/-- One call: it succeeds, keeps the bookkeeping, and keeps the order exactly under its
condition. -/
theorem HeapOp.apply_spec (timeout now : ℤ) {op : HeapOp} {h : Heap} (hi : h.Indexed)
    (hs : h.Sorted) (ha : op.Allowed h) :
    ∃ h', op.apply timeout now h = .ok h' ∧ h'.Indexed ∧
      (h'.Sorted ↔ op.KeepsOrder timeout now h) := by
  cases op with
  | activate c =>
      exact ⟨_, rfl, (Heap.activate_kept hi ha now).indexed, Heap.activate_sorted_iff hs hi ha now⟩
  | expire c =>
      exact ⟨_, rfl, (Heap.expire_kept hi ha timeout now).indexed,
        Heap.expire_sorted_iff hs hi ha timeout now⟩
  | unregister c =>
      obtain ⟨h', hok, hi', -⟩ := Heap.unregister_spec hi ha
      refine ⟨h', hok, hi', ?_⟩
      have := Heap.unregister_sorted_iff hs hi ha
      rw [hok] at this
      simp only [Except.ok.injEq, exists_eq_left'] at this
      exact this
  | register c =>
      have hs' : (h.setTime c now).Sorted := by
        refine Ordered.congr_key (show Ordered h.time h.size h.conns from hs) fun j h1 hj => ?_
        exact Heap.setTime_time_ne h now fun e => ha ⟨j, h1, hj, e⟩
      refine ⟨_, rfl, ?_, iff_of_true (Heap.register_sorted hs' hi ha) trivial⟩
      by_cases hroom : h.size + 1 ≤ MAX_CONNECTION
      · rw [Heap.register_of_room (h := h.setTime c now) hroom]
        exact (Heap.register_rearranged (h := h.setTime c now) hi ha).indexed
      · unfold Heap.register
        rw [if_pos (by show h.size + 1 > MAX_CONNECTION; omega)]
        exact hi

/-- **Heap order**: a run from the empty heap keeps `connections[1 .. heap_size]` in order in
every state exactly when each of its calls meets the condition on the neighbours. -/
theorem heapOrder_iff {timeout : ℤ} {h : Heap} {run : List (HeapOp × ℤ)} (hempty : h.size = 0)
    (hrun : ValidRun timeout h run) :
    (∀ h' ∈ heapStates timeout h run, h'.HeapOrder) ↔
      ∀ x ∈ heapSteps timeout h run, x.2.1.KeepsOrder timeout x.2.2 x.1 := by
  have hgen : ∀ (run : List (HeapOp × ℤ)) (h : Heap), h.Indexed → h.Sorted →
      (∀ x ∈ heapSteps timeout h run, x.2.1.Allowed x.1) →
      ((∀ h' ∈ heapStates timeout h run, h'.Sorted) ↔
        ∀ x ∈ heapSteps timeout h run, x.2.1.KeepsOrder timeout x.2.2 x.1) := by
    intro run
    induction run with
    | nil =>
        intro h _ hs _
        simp [heapStates, heapSteps, hs]
    | cons step rest ih =>
        intro h hi hs ha
        obtain ⟨op, now⟩ := step
        have hop : op.Allowed h := ha (h, op, now) (List.mem_cons_self ..)
        obtain ⟨h', hok, hi', hiff⟩ := op.apply_spec timeout now hi hs hop
        simp only [heapStates, heapSteps, hok, List.mem_cons, forall_eq_or_imp, hs, true_and]
        simp only [heapSteps, hok, List.mem_cons, forall_eq_or_imp] at ha
        constructor
        · intro hall
          have hs' : h'.Sorted := hall h' (by cases rest <;> simp [heapStates])
          exact ⟨hiff.mp hs', (ih h' hi' hs' ha.2).mp hall⟩
        · rintro ⟨hk, hrest⟩
          exact (ih h' hi' (hiff.mpr hk) ha.2).mpr hrest
  have hi : h.Indexed := fun j h1 hj => by omega
  have hs : h.Sorted := fun k h2 hk => by omega
  simp only [Heap.heapOrder_iff_sorted]
  exact hgen run h hi hs hrun.2

/-- Six connections are opened at time 0; the three of the left subtree are active at time 5;
then the connection at position 4 is closed. -/
def leftSubtreeRun : List (HeapOp × ℤ) :=
  [(.register 1, 0), (.register 2, 0), (.register 3, 0), (.register 4, 0), (.register 5, 0),
    (.register 6, 0), (.activate 2, 5), (.activate 4, 5), (.activate 5, 5), (.unregister 5, 5)]

/-- The last connection, of time 0, takes a place below a parent of time 5 and stays there. -/
theorem leftSubtreeRun_disorder :
    ValidRun 60 Heap.empty leftSubtreeRun ∧
      ¬ ∀ h ∈ heapStates 60 Heap.empty leftSubtreeRun, h.HeapOrder := by
  refine ⟨by unfold ValidRun; decide +kernel, fun hall => ?_⟩
  have hlast := hall _ (List.getLast_mem (by decide +kernel))
  have := hlast.parent 4 (by decide) (by decide +kernel)
  revert this
  decide +kernel

/-- A run that meets the conditions. -/
def touchRun : List (HeapOp × ℤ) := [(.register 1, 0), (.register 2, 1), (.activate 1, 3), (.unregister 2, 4)]

theorem heapOrder_iff_touch :
    ValidRun 60 Heap.empty touchRun ∧ ∀ h ∈ heapStates 60 Heap.empty touchRun, h.HeapOrder := by
  have hvalid : ValidRun 60 Heap.empty touchRun := by
    unfold ValidRun
    decide +kernel
  refine ⟨hvalid, (heapOrder_iff rfl hvalid).mpr ?_⟩
  intro x hx
  rcases List.mem_cons.mp hx with rfl | hx
  · trivial
  rcases List.mem_cons.mp hx with rfl | hx
  · trivial
  rcases List.mem_cons.mp hx with rfl | hx
  · intro h2
    exact absurd h2 (by decide +kernel)
  rcases List.mem_cons.mp hx with rfl | hx
  · intro h2
    exact absurd h2 (by decide +kernel)
  · cases hx

end SyServer
