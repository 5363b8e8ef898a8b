import SyServer.HeapOrder
import SyServer.Lib.Transition

/-! # The bookkeeping of the timeout heap

What `connections[1 .. heap_size]` and the indices say about who is registered, whatever the clock
answers and whether or not the times are in order.

The sifts are stated once more with every access of `connections` checked (`readChecked`,
`putChecked`), and with a loop that gives up when its fuel ends.  They never give up, and they are
the sifts of `Heap.lean`: no access leaves `1 .. MAX_CONNECTION`, and every loop ends on its own.

* `shiftUpLoopChecked_eq`, `shiftDownLoopChecked_eq`: the loops.
* `HeapOp.applyChecked_eq`: the calls.
* `HeapOp.tracked`: a call changes the registered connections as it should. -/

namespace SyServer

open Transition (Reach)

namespace Heap

/-! ### Checked accesses -/

/-- `connections[k]`. -/
def readChecked (h : Heap) (k : ℕ) : Option ConnAddr :=
  if 1 ≤ k ∧ k ≤ MAX_CONNECTION then some (h.conns k) else none

/-- `connections[k] = c; connections[k]->heap_idx = k;` -/
def putChecked (h : Heap) (k : ℕ) (c : ConnAddr) : Option Heap :=
  if 1 ≤ k ∧ k ≤ MAX_CONNECTION then some (h.put k c) else none

/-- The loop of `sy_heap_shift_up`. -/
def shiftUpLoopChecked (c : ConnAddr) : ℕ → ℕ → Heap → Option (Heap × ℕ)
  | 0, _, _ => none
  | n + 1, k, h =>
      if k / 2 > 0 then do
        let pc ← h.readChecked (k / 2)
        if h.time c ≥ h.time pc then pure (h, k)
        else do
          let h' ← h.putChecked k pc
          shiftUpLoopChecked c n (k / 2) h'
      else pure (h, k)

/-- `sy_heap_shift_up`. -/
def shiftUpChecked (h : Heap) (idx : ℕ) : Option Heap := do
  let c ← h.readChecked idx
  let (h', k) ← shiftUpLoopChecked c idx idx h
  h'.putChecked k c

/-- `kid`: the two children are compared when the right one exists. -/
def kidChecked (h : Heap) (k : ℕ) : Option ℕ :=
  if k * 2 + 1 ≤ h.size then do
    let r ← h.readChecked (k * 2 + 1)
    let l ← h.readChecked (k * 2)
    pure (if h.time r < h.time l then k * 2 + 1 else k * 2)
  else pure (k * 2)

/-- The loop of `sy_heap_shift_down`. -/
def shiftDownLoopChecked (c : ConnAddr) : ℕ → ℕ → Heap → Option (Heap × ℕ)
  | 0, _, _ => none
  | n + 1, k, h => do
      let kid ← h.kidChecked k
      if kid > h.size then pure (h, k)
      else do
        let kc ← h.readChecked kid
        if h.time c < h.time kc then pure (h, k)
        else do
          let h' ← h.putChecked k kc
          shiftDownLoopChecked c n kid h'

/-- `sy_heap_shift_down`. -/
def shiftDownChecked (h : Heap) (idx : ℕ) : Option Heap := do
  let c ← h.readChecked idx
  let (h', k) ← shiftDownLoopChecked c h.size idx h
  h'.putChecked k c

variable {h : Heap} {c : ConnAddr} {k : ℕ}

theorem readChecked_eq (h1 : 1 ≤ k) (hk : k ≤ MAX_CONNECTION) :
    h.readChecked k = some (h.conns k) := by
  simp [readChecked, h1, hk]

theorem putChecked_eq (h1 : 1 ≤ k) (hk : k ≤ MAX_CONNECTION) :
    h.putChecked k c = some (h.put k c) := by
  simp [putChecked, h1, hk]

/-- **The way up** halves the position, and ends at the root at the latest. -/
theorem shiftUpLoopChecked_eq (n : ℕ) (h1 : 1 ≤ k) (hk : k ≤ MAX_CONNECTION) (hn : k ≤ n) :
    shiftUpLoopChecked c n k h = some (shiftUpLoop c n k h) ∧
      1 ≤ (shiftUpLoop c n k h).2 ∧ (shiftUpLoop c n k h).2 ≤ MAX_CONNECTION := by
  induction n generalizing k h with
  | zero => omega
  | succ n ih =>
      unfold shiftUpLoopChecked shiftUpLoop
      by_cases hpar : k / 2 > 0
      · have hread := readChecked_eq (h := h) (k := k / 2) (by omega) (by omega)
        have hput := putChecked_eq (h := h) (c := h.conns (k / 2)) h1 hk
        simp only [if_pos hpar, hread, Option.bind_eq_bind, Option.bind_some]
        by_cases hle : h.time c ≥ h.time (h.conns (k / 2))
        · simp only [if_pos hle]
          exact ⟨rfl, h1, hk⟩
        · simp only [if_neg hle, hput, Option.bind_some]
          exact ih (by omega) (by omega) (by omega)
      · simp only [if_neg hpar]
        exact ⟨rfl, h1, hk⟩

theorem shiftUpChecked_eq (h1 : 1 ≤ k) (hk : k ≤ MAX_CONNECTION) :
    h.shiftUpChecked k = some (h.shiftUp k) := by
  obtain ⟨hloop, h1', hk'⟩ := shiftUpLoopChecked_eq (h := h) (c := h.conns k) k h1 hk le_rfl
  unfold shiftUpChecked
  simp only [readChecked_eq h1 hk, Option.bind_eq_bind, Option.bind_some, hloop]
  exact putChecked_eq h1' hk'

theorem kidChecked_eq (h1 : 1 ≤ k) (hsize : h.size ≤ MAX_CONNECTION) :
    h.kidChecked k = some (h.kid k) := by
  unfold kidChecked kid
  by_cases hr : k * 2 + 1 ≤ h.size
  · have hright := readChecked_eq (h := h) (k := k * 2 + 1) (by omega) (by omega)
    have hleft := readChecked_eq (h := h) (k := k * 2) (by omega) (by omega)
    simp [hr, hright, hleft]
  · simp [hr]

/-- **The way down** reads children that exist, and doubles the position. -/
theorem shiftDownLoopChecked_eq (n : ℕ) (h1 : 1 ≤ k) (hk : k ≤ MAX_CONNECTION)
    (hsize : h.size ≤ MAX_CONNECTION) (hn : 0 < n) (hfuel : h.size < k + n) :
    shiftDownLoopChecked c n k h = some (shiftDownLoop c n k h) ∧
      1 ≤ (shiftDownLoop c n k h).2 ∧ (shiftDownLoop c n k h).2 ≤ MAX_CONNECTION := by
  induction n generalizing k h with
  | zero => omega
  | succ n ih =>
      have hgt := h.kid_gt h1
      unfold shiftDownLoopChecked shiftDownLoop
      simp only [kidChecked_eq h1 hsize, Option.bind_eq_bind, Option.bind_some]
      by_cases hend : h.kid k > h.size
      · simp only [if_pos hend, if_pos (Or.inl hend)]
        exact ⟨rfl, h1, hk⟩
      · have hread := readChecked_eq (h := h) (k := h.kid k) (by omega) (by omega)
        have hput := putChecked_eq (h := h) (c := h.conns (h.kid k)) h1 hk
        simp only [if_neg hend, hread, Option.bind_some]
        by_cases hlt : h.time c < h.time (h.conns (h.kid k))
        · simp only [if_pos hlt, if_pos (Or.inr hlt)]
          exact ⟨rfl, h1, hk⟩
        · simp only [if_neg hlt, hput, Option.bind_some, if_neg (not_or.mpr ⟨hend, hlt⟩)]
          refine ih (by omega) (by omega) hsize ?_ ?_
          · omega
          · show h.size < h.kid k + n
            omega

theorem shiftDownChecked_eq (h1 : 1 ≤ k) (hk : k ≤ MAX_CONNECTION)
    (hsize : h.size ≤ MAX_CONNECTION) (hpos : 0 < h.size) :
    h.shiftDownChecked k = some (h.shiftDown k) := by
  obtain ⟨hloop, h1', hk'⟩ :=
    shiftDownLoopChecked_eq (c := h.conns k) h.size h1 hk hsize hpos (by omega)
  unfold shiftDownChecked
  simp only [readChecked_eq h1 hk, Option.bind_eq_bind, Option.bind_some, hloop]
  exact putChecked_eq h1' hk'

/-! ### Who is registered -/

/-- The array holds the connections of `S`, each at the position it knows. -/
structure Tracked (h : Heap) (S : Finset ConnAddr) : Prop where
  indexed : h.Indexed
  elem : ∀ c, h.Elem c ↔ c ∈ S
  room : h.size ≤ MAX_CONNECTION

/-- `connections[1 .. heap_size]` lists the connections of `S`. -/
structure Lists (h : Heap) (S : Finset ConnAddr) : Prop where
  once : ∀ c ∈ S, ∃! j, 1 ≤ j ∧ j ≤ h.size ∧ h.conns j = c
  only : ∀ j, 1 ≤ j → j ≤ h.size → h.conns j ∈ S
  home : ∀ c ∈ S, 1 ≤ h.idx c ∧ h.idx c ≤ h.size ∧ h.conns (h.idx c) = c
  count : h.size = S.card

variable {S : Finset ConnAddr}

theorem Tracked.idx (ht : h.Tracked S) (hc : c ∈ S) :
    1 ≤ h.idx c ∧ h.idx c ≤ h.size ∧ h.conns (h.idx c) = c :=
  ht.indexed.conns_idx ((ht.elem c).mpr hc)

/-- The positions and the connections correspond to each other. -/
theorem Tracked.card (ht : h.Tracked S) : h.size = S.card := by
  have hbij : (Finset.Icc 1 h.size).card = S.card := by
    refine Finset.card_bij (fun j _ => h.conns j) ?_ ?_ ?_
    · intro j hj
      rw [Finset.mem_Icc] at hj
      exact (ht.elem _).mp ⟨j, hj.1, hj.2, rfl⟩
    · intro i hi j hj e
      rw [Finset.mem_Icc] at hi hj
      rw [← ht.indexed i hi.1 hi.2, e, ht.indexed j hj.1 hj.2]
    · intro c hc
      obtain ⟨h1, hk, hcc⟩ := ht.idx hc
      exact ⟨h.idx c, Finset.mem_Icc.mpr ⟨h1, hk⟩, hcc⟩
  rw [← hbij]
  simp

theorem Tracked.lists (ht : h.Tracked S) : h.Lists S where
  once c hc := by
    obtain ⟨h1, hk, hcc⟩ := ht.idx hc
    refine ⟨h.idx c, ⟨h1, hk, hcc⟩, ?_⟩
    rintro j ⟨hj1, hj, rfl⟩
    exact (ht.indexed j hj1 hj).symm
  only j h1 hj := (ht.elem _).mp ⟨j, h1, hj, rfl⟩
  home _ hc := ht.idx hc
  count := ht.card

/-- An operation that keeps who is registered. -/
theorem Tracked.kept {h' : Heap} (ht : h.Tracked S) (hk : Kept h h') : h'.Tracked S where
  indexed := hk.indexed
  elem c := (hk.elem c).trans (ht.elem c)
  room := hk.size ▸ ht.room

end Heap

/-! ### The calls -/

/-- `connections[++heap_size] = c;` -/
def Heap.pushChecked (h : Heap) (c : ConnAddr) : Option Heap :=
  if h.size + 1 ≤ MAX_CONNECTION then some (h.pushed c) else none

namespace HeapOp

/-- The call with its accesses checked. -/
def applyChecked (timeout now : ℤ) : HeapOp → Heap → Option Heap
  | register c, h =>
      let h := h.setTime c now
      if h.size + 1 > MAX_CONNECTION then some h
      else do
        let h' ← h.pushChecked c
        h'.shiftUpChecked h'.size
  | activate c, h => (h.setTime c now).shiftDownChecked (h.idx c)
  | expire c, h => (h.setTime c (now - timeout - 1)).shiftUpChecked (h.idx c)
  | unregister c, h => do
      let last ← h.readChecked h.size
      let h' ← h.putChecked (h.idx c) last
      let h' := { h' with size := h'.size - 1 }
      if h'.size > 0 then h'.shiftDownChecked (h'.idx c) else some h'

/-- The connections that are registered behind the call. -/
def track : HeapOp → Finset ConnAddr → Finset ConnAddr
  | register c, S => insert c S
  | activate _, S => S
  | expire _, S => S
  | unregister c, S => S.erase c

/-- New connections are registered while there is room; the other calls are made on registered
ones. -/
def Legal : HeapOp → Finset ConnAddr → Prop
  | register c, S => c ∉ S ∧ S.card < MAX_CONNECTION
  | activate c, S => c ∈ S
  | expire c, S => c ∈ S
  | unregister c, S => c ∈ S

instance : (op : HeapOp) → (S : Finset ConnAddr) → Decidable (op.Legal S)
  | register c, S => inferInstanceAs (Decidable (c ∉ S ∧ S.card < MAX_CONNECTION))
  | activate c, S => inferInstanceAs (Decidable (c ∈ S))
  | expire c, S => inferInstanceAs (Decidable (c ∈ S))
  | unregister c, S => inferInstanceAs (Decidable (c ∈ S))

variable {h : Heap} {S : Finset ConnAddr} {op : HeapOp}

/-- **A call** changes the registered connections as it should, and nothing else. -/
theorem tracked (timeout now : ℤ) (ht : h.Tracked S) (hl : op.Legal S) :
    ∃ h', op.apply timeout now h = .ok h' ∧ h'.Tracked (op.track S) := by
  cases op with
  | register c =>
      obtain ⟨hc, hroom⟩ := hl
      rw [← ht.card] at hroom
      have hnot : ¬ (h.setTime c now).Elem c := fun he => hc ((ht.elem c).mp he)
      have hr := Heap.register_rearranged (h := h.setTime c now) ht.indexed hnot
      refine ⟨_, rfl, ?_⟩
      rw [Heap.register_of_room (h := h.setTime c now) hroom]
      refine ⟨hr.indexed, fun x => ?_, ?_⟩
      · rw [hr.elem, Heap.pushed_elem, track, Finset.mem_insert, Heap.setTime_elem, ht.elem]
      · rw [hr.size]
        exact hroom
  | activate c =>
      exact ⟨_, rfl, ht.kept (Heap.activate_kept ht.indexed ((ht.elem c).mpr hl) now)⟩
  | expire c =>
      exact ⟨_, rfl, ht.kept (Heap.expire_kept ht.indexed ((ht.elem c).mpr hl) timeout now)⟩
  | unregister c =>
      obtain ⟨h', hok, hi, hsize, -, helem⟩ :=
        Heap.unregister_spec ht.indexed ((ht.elem c).mpr hl)
      refine ⟨h', hok, hi, fun x => ?_, ?_⟩
      · rw [helem, ht.elem, track, Finset.mem_erase, and_comm]
      · have := ht.room
        omega

/-- **The accesses** of a call stay in the array. -/
theorem applyChecked_eq (timeout now : ℤ) (ht : h.Tracked S) (hl : op.Legal S) :
    ∃ h', op.apply timeout now h = .ok h' ∧ op.applyChecked timeout now h = some h' := by
  have hmax := ht.room
  cases op with
  | register c =>
      obtain ⟨-, hroom⟩ := hl
      rw [← ht.card] at hroom
      have hfull : ¬ (h.setTime c now).size + 1 > MAX_CONNECTION := by
        rw [Heap.setTime_size]
        omega
      refine ⟨_, rfl, ?_⟩
      rw [Heap.register_of_room (h := h.setTime c now) hroom]
      simp only [applyChecked, if_neg hfull, Heap.pushChecked, Option.bind_eq_bind]
      rw [if_pos (not_lt.mp hfull), Option.bind_some]
      exact Heap.shiftUpChecked_eq (by simp [Heap.pushed]) (not_lt.mp hfull)
  | activate c =>
      obtain ⟨h1, hk, -⟩ := ht.idx hl
      exact ⟨_, rfl, Heap.shiftDownChecked_eq h1 (hk.trans hmax) hmax (h1.trans hk)⟩
  | expire c =>
      obtain ⟨h1, hk, -⟩ := ht.idx hl
      exact ⟨_, rfl, Heap.shiftUpChecked_eq h1 (hk.trans hmax)⟩
  | unregister c =>
      obtain ⟨h1, hk, -⟩ := ht.idx hl
      have hidx := Heap.replaced_idx_self ht.indexed ((ht.elem c).mpr hl)
      refine ⟨_, Heap.unregister_eq ht.indexed ((ht.elem c).mpr hl), ?_⟩
      simp only [applyChecked, Option.bind_eq_bind, Heap.readChecked_eq (h1.trans hk) hmax,
        Heap.putChecked_eq h1 (hk.trans hmax), Option.bind_some, Heap.put_size]
      -- `c` may be one position behind the end now
      show (if h.size - 1 > 0 then (h.replaced c).shiftDownChecked ((h.replaced c).idx c)
        else some (h.replaced c)) = _
      rw [hidx]
      by_cases hpos : h.size - 1 > 0
      · rw [if_pos hpos, if_pos hpos]
        refine Heap.shiftDownChecked_eq h1 (hk.trans hmax) ?_ hpos
        show h.size - 1 ≤ MAX_CONNECTION
        omega
      · rw [if_neg hpos, if_neg hpos]

end HeapOp

/-! ### Runs -/

/-- One call on a heap in which the connections of the second component are registered. -/
def heapCall (timeout : ℤ) : Heap × Finset ConnAddr → HeapOp × ℤ → Option (Heap × Finset ConnAddr)
  | (h, S), (op, now) => (op.apply timeout now h).toOption.map fun h' => (h', op.track S)

/-- The states of runs of legal calls from a heap without connections, under any clock. -/
abbrev HeapReached (timeout : ℤ) : Heap × Finset ConnAddr → Prop :=
  Reach (fun x => x.1.size = 0 ∧ x.2 = ∅) (heapCall timeout) fun x l => l.1.Legal x.2

theorem HeapReached.tracked {timeout : ℤ} {x : Heap × Finset ConnAddr}
    (hx : HeapReached timeout x) : x.1.Tracked x.2 := by
  refine Reach.invariant (fun x => x.1.Tracked x.2) ?_ ?_ hx
  · rintro ⟨h, S⟩ ⟨hsize, rfl⟩
    replace hsize : h.size = 0 := hsize
    refine ⟨fun j h1 hj => ?_, fun c => ?_, ?_⟩
    · rw [hsize] at hj
      omega
    · simp only [Finset.notMem_empty, iff_false]
      rintro ⟨j, h1, hj, -⟩
      omega
    · rw [hsize]
      exact Nat.zero_le _
  · rintro ⟨h, S⟩ ⟨op, now⟩ x' ht hl hstep
    obtain ⟨h', hok, ht'⟩ := HeapOp.tracked timeout now ht hl
    simp only [heapCall, hok, Except.toOption, Option.map_some, Option.some.injEq] at hstep
    rw [← hstep]
    exact ht'

/-- **Heap bookkeeping**: in every state of every run `connections[1 .. heap_size]` lists the
registered connections, each at the position it knows, and every further call succeeds with all
its accesses inside the array. -/
theorem heap_bookkeeping {timeout : ℤ} {x : Heap × Finset ConnAddr} (hx : HeapReached timeout x) :
    x.1.Lists x.2 ∧ ∀ (op : HeapOp) (now : ℤ), op.Legal x.2 →
      ∃ h', op.apply timeout now x.1 = .ok h' ∧ op.applyChecked timeout now x.1 = some h' :=
  ⟨(HeapReached.tracked hx).lists,
    fun _ now hl => HeapOp.applyChecked_eq timeout now (HeapReached.tracked hx) hl⟩

/-- Three connections, a clock that goes back, and the last one of the array is taken away. -/
def threeCalls : List (HeapOp × ℤ) :=
  [(.register 4, 9), (.register 2, 3), (.register 7, 3), (.activate 2, 1), (.unregister 7, 0)]

theorem heap_bookkeeping_three :
    ∃ x, Transition.exec (heapCall 60) (Heap.empty, ∅) threeCalls = some x ∧ x.2 = {2, 4} ∧
      x.1.Lists x.2 := by
  obtain ⟨x, hx, hS⟩ := Transition.exists_of_any
    (o := Transition.exec (heapCall 60) (Heap.empty, ∅) threeCalls)
    (P := fun x => x.2 = {2, 4}) (by decide +kernel)
  exact ⟨x, hx, of_decide_eq_true hS,
    (heap_bookkeeping (Reach.exec (.start ⟨rfl, rfl⟩) (by decide +kernel) hx)).1⟩

end SyServer
