import SyServer.Types
import SyServer.Lib.HoleHeap

/-! # The timeout heap

`connection.c`: the array `connections[1 .. heap_size]`, a heap on `active_time`, in which every
connection knows its position (`heap_idx`).  `time` and `idx` are these two fields of
`sy_connection_t`, by address; a connection that was never registered has whatever its memory
holds.

A sift takes a connection out of its position, moves the hole, and puts the connection back.
The loops halve or double the position, so the fuel `idx` and `heap_size` is enough.

* `Indexed`: every position holds a connection that knows it; kept by every operation.
* `Elem`: what is registered; each operation adds or removes exactly one connection.

The order of the times is in `HeapOrder.lean`. -/

namespace SyServer

open HoleHeap

/-- `MAX_CONNECTION`. -/
def MAX_CONNECTION : ℕ := 1024 * 8

/-- `connections`, `heap_size`, and the fields `active_time` and `heap_idx`. -/
structure Heap where
  conns : ℕ → ConnAddr
  size : ℕ
  time : ConnAddr → ℤ
  idx : ConnAddr → ℕ

namespace Heap

/-- The heap before the first connection. -/
def empty : Heap := ⟨fun _ => 0, 0, fun _ => 0, fun _ => 0⟩

/-- `connections[k] = c; connections[k]->heap_idx = k;` -/
def put (h : Heap) (k : ℕ) (c : ConnAddr) : Heap :=
  { h with conns := Function.update h.conns k c, idx := Function.update h.idx c k }

/-- The loop of `sy_heap_shift_up`: the hole's last position. -/
def shiftUpLoop (c : ConnAddr) : ℕ → ℕ → Heap → Heap × ℕ
  | 0, k, h => (h, k)
  | n + 1, k, h =>
      if k / 2 > 0 then
        let pc := h.conns (k / 2)
        if h.time c ≥ h.time pc then (h, k)
        else shiftUpLoop c n (k / 2) (h.put k pc)
      else (h, k)

/-- `sy_heap_shift_up`. -/
def shiftUp (h : Heap) (idx : ℕ) : Heap :=
  let c := h.conns idx
  let (h', k) := shiftUpLoop c idx idx h
  h'.put k c

/-- `kid`: the right child when it exists and is smaller, else the left one. -/
def kid (h : Heap) (k : ℕ) : ℕ :=
  if k * 2 + 1 ≤ h.size ∧ h.time (h.conns (k * 2 + 1)) < h.time (h.conns (k * 2)) then k * 2 + 1
  else k * 2

/-- The loop of `sy_heap_shift_down`. -/
def shiftDownLoop (c : ConnAddr) : ℕ → ℕ → Heap → Heap × ℕ
  | 0, k, h => (h, k)
  | n + 1, k, h =>
      let kid := h.kid k
      if kid > h.size ∨ h.time c < h.time (h.conns kid) then (h, k)
      else shiftDownLoop c n kid (h.put k (h.conns kid))

/-- `sy_heap_shift_down`. -/
def shiftDown (h : Heap) (idx : ℕ) : Heap :=
  let c := h.conns idx
  let (h', k) := shiftDownLoop c h.size idx h
  h'.put k c

/-- `c->active_time = t;` -/
def setTime (h : Heap) (c : ConnAddr) (t : ℤ) : Heap :=
  { h with time := Function.update h.time c t }

/-- `sy_connection_activate` without the call for `r->uc`. -/
def activate (h : Heap) (now : ℤ) (c : ConnAddr) : Heap := (h.setTime c now).shiftDown (h.idx c)

/-- `sy_connection_expire` without the call for `r->uc`. -/
def expire (h : Heap) (timeout now : ℤ) (c : ConnAddr) : Heap :=
  (h.setTime c (now - timeout - 1)).shiftUp (h.idx c)

/-- `sy_connection_is_expired`. -/
def isExpired (h : Heap) (timeout now : ℤ) (c : ConnAddr) : Bool := h.time c + timeout < now

/-- `sy_connection_register`: `false` for `-1`. -/
def register (h : Heap) (c : ConnAddr) : Bool × Heap :=
  if h.size + 1 > MAX_CONNECTION then (false, h)
  else
    let size := h.size + 1
    let h' : Heap := { h with conns := Function.update h.conns size c, size := size }
    (true, h'.shiftUp size)

/-- `sy_connection_unregister`. -/
def unregister (h : Heap) (c : ConnAddr) : Except Fault Heap :=
  if h.size > 0 then
    let last := h.conns h.size
    let h' : Heap := { h.put (h.idx c) last with size := h.size - 1 }
    .ok (if h'.size > 0 then h'.shiftDown (h'.idx c) else h')
  else .error .heapEmpty

/-! ### Positions -/

/-- `c` is in the array. -/
def Elem (h : Heap) (c : ConnAddr) : Prop := ∃ j, 1 ≤ j ∧ j ≤ h.size ∧ h.conns j = c

instance (h : Heap) (c : ConnAddr) : Decidable (h.Elem c) :=
  decidable_of_iff ((List.range h.size).any fun j => h.conns (j + 1) = c) <| by
    simp only [List.any_eq_true, List.mem_range, decide_eq_true_eq, Elem]
    exact ⟨fun ⟨j, hj, e⟩ => ⟨j + 1, by omega, by omega, e⟩,
      fun ⟨j, h1, hj, e⟩ => ⟨j - 1, by omega, by rwa [show j - 1 + 1 = j by omega]⟩⟩

/-- Every position holds a connection that knows it. -/
def Indexed (h : Heap) : Prop := ∀ j, 1 ≤ j → j ≤ h.size → h.idx (h.conns j) = j

/-- The same around a hole at `k` from which `c` was taken. -/
structure Placed (h : Heap) (k : ℕ) (c : ConnAddr) : Prop where
  idx : ∀ j, 1 ≤ j → j ≤ h.size → j ≠ k → h.idx (h.conns j) = j
  other : ∀ j, 1 ≤ j → j ≤ h.size → j ≠ k → h.conns j ≠ c

/-- `x` is in the array at another position than `k`. -/
def ElemOff (h : Heap) (k : ℕ) (x : ConnAddr) : Prop :=
  ∃ j, 1 ≤ j ∧ j ≤ h.size ∧ j ≠ k ∧ h.conns j = x

@[simp] theorem put_size (h : Heap) (k : ℕ) (c : ConnAddr) : (h.put k c).size = h.size := rfl
@[simp] theorem put_time (h : Heap) (k : ℕ) (c : ConnAddr) : (h.put k c).time = h.time := rfl
@[simp] theorem put_conns (h : Heap) (k : ℕ) (c : ConnAddr) :
    (h.put k c).conns = Function.update h.conns k c := rfl
@[simp] theorem setTime_conns (h : Heap) (c : ConnAddr) (t : ℤ) :
    (h.setTime c t).conns = h.conns := rfl
@[simp] theorem setTime_size (h : Heap) (c : ConnAddr) (t : ℤ) : (h.setTime c t).size = h.size := rfl
@[simp] theorem setTime_idx (h : Heap) (c : ConnAddr) (t : ℤ) : (h.setTime c t).idx = h.idx := rfl
@[simp] theorem setTime_time (h : Heap) (c : ConnAddr) (t : ℤ) : (h.setTime c t).time c = t := by
  simp [setTime]

theorem setTime_time_ne (h : Heap) {c x : ConnAddr} (t : ℤ) (hx : x ≠ c) :
    (h.setTime c t).time x = h.time x := by
  simp [setTime, hx]

/-- A registered connection is at its index. -/
theorem Indexed.conns_idx {h : Heap} (hi : h.Indexed) {c : ConnAddr} (hc : h.Elem c) :
    1 ≤ h.idx c ∧ h.idx c ≤ h.size ∧ h.conns (h.idx c) = c := by
  obtain ⟨j, h1, h2, rfl⟩ := hc
  rw [hi j h1 h2]
  exact ⟨h1, h2, rfl⟩

/-- Taking out the connection at `k` leaves a hole. -/
theorem Indexed.placed {h : Heap} (hi : h.Indexed) {k : ℕ} (h1 : 1 ≤ k) (hk : k ≤ h.size) :
    h.Placed k (h.conns k) where
  idx j hj1 hj _ := hi j hj1 hj
  other j hj1 hj hjk e := hjk <| by
    have := hi j hj1 hj
    rw [e, hi k h1 hk] at this
    exact this.symm

/-- Putting `c` into the hole completes the positions. -/
theorem Placed.put {h : Heap} {k : ℕ} {c : ConnAddr} (hp : h.Placed k c) :
    (h.put k c).Indexed := by
  intro j h1 hj
  by_cases hjk : j = k
  · rw [hjk]
    simp [Heap.put]
  · have := hp.other j h1 hj hjk
    simp only [Heap.put, Function.update_of_ne hjk, Function.update_of_ne this]
    exact hp.idx j h1 hj hjk

theorem elem_put {h : Heap} {k : ℕ} {c : ConnAddr} (h1 : 1 ≤ k) (hk : k ≤ h.size) (x : ConnAddr) :
    (h.put k c).Elem x ↔ x = c ∨ h.ElemOff k x := by
  constructor
  · rintro ⟨j, hj1, hj, rfl⟩
    by_cases hjk : j = k
    · rw [hjk]
      exact .inl (by simp)
    · exact .inr ⟨j, hj1, hj, hjk, by simp [hjk]⟩
  · rintro (rfl | ⟨j, hj1, hj, hjk, rfl⟩)
    · exact ⟨k, h1, hk, by simp⟩
    · exact ⟨j, hj1, hj, by simp [hjk]⟩

/-- A neighbour moves into the hole, which moves to the neighbour's position. -/
theorem Placed.move {h : Heap} {k j : ℕ} {c : ConnAddr} (hp : h.Placed k c) (hj1 : 1 ≤ j)
    (hj : j ≤ h.size) (hjk : j ≠ k) : (h.put k (h.conns j)).Placed j c where
  idx i hi1 hi hij := by
    by_cases hik : i = k
    · rw [hik]
      simp [Heap.put]
    · have hne : h.conns i ≠ h.conns j := fun e => hij <| by
        have := hp.idx i hi1 hi hik
        rw [e, hp.idx j hj1 hj hjk] at this
        exact this.symm
      simp only [Heap.put, Function.update_of_ne hik, Function.update_of_ne hne]
      exact hp.idx i hi1 hi hik
  other i hi1 hi hij := by
    by_cases hik : i = k
    · rw [hik, put_conns, Function.update_self]
      exact hp.other j hj1 hj hjk
    · rw [put_conns, Function.update_of_ne hik]
      exact hp.other i hi1 hi hik

theorem elemOff_move {h : Heap} {k j : ℕ} (h1 : 1 ≤ k) (hk : k ≤ h.size) (hj1 : 1 ≤ j)
    (hj : j ≤ h.size) (hjk : j ≠ k) (x : ConnAddr) :
    (h.put k (h.conns j)).ElemOff j x ↔ h.ElemOff k x := by
  constructor
  · rintro ⟨i, hi1, hi, hij, rfl⟩
    by_cases hik : i = k
    · exact ⟨j, hj1, hj, hjk, by simp [hik]⟩
    · exact ⟨i, hi1, hi, hik, by simp [hik]⟩
  · rintro ⟨i, hi1, hi, hik, rfl⟩
    by_cases hij : i = j
    · exact ⟨k, h1, hk, Ne.symm hjk, by simp [hij]⟩
    · exact ⟨i, hi1, hi, hij, by simp [hik]⟩

/-! ### The sift loops -/

/-- From the hole `k` in `h` to the hole `k'` in `h'`: the same connections, rearranged. -/
structure Sifted (h : Heap) (k : ℕ) (c : ConnAddr) (h' : Heap) (k' : ℕ) : Prop where
  size : h'.size = h.size
  time : h'.time = h.time
  pos : 1 ≤ k'
  le : k' ≤ h.size
  placed : h'.Placed k' c
  elem : ∀ x, h'.ElemOff k' x ↔ h.ElemOff k x

theorem Sifted.refl {h : Heap} {k : ℕ} {c : ConnAddr} (h1 : 1 ≤ k) (hk : k ≤ h.size)
    (hp : h.Placed k c) : Sifted h k c h k :=
  ⟨rfl, rfl, h1, hk, hp, fun _ => Iff.rfl⟩

/-- One move in front. -/
theorem Sifted.move {h h' : Heap} {k j k' : ℕ} {c : ConnAddr} (h1 : 1 ≤ k) (hk : k ≤ h.size)
    (hj1 : 1 ≤ j) (hj : j ≤ h.size) (hjk : j ≠ k)
    (hs : Sifted (h.put k (h.conns j)) j c h' k') : Sifted h k c h' k' :=
  ⟨hs.size, hs.time, hs.pos, hs.le, hs.placed,
    fun x => (hs.elem x).trans (elemOff_move h1 hk hj1 hj hjk x)⟩

theorem shiftUpLoop_sifted {c : ConnAddr} (n : ℕ) {k : ℕ} {h : Heap} (h1 : 1 ≤ k)
    (hk : k ≤ h.size) (hp : h.Placed k c) :
    Sifted h k c (shiftUpLoop c n k h).1 (shiftUpLoop c n k h).2 := by
  induction n generalizing k h with
  | zero => exact .refl h1 hk hp
  | succ n ih =>
      unfold shiftUpLoop
      dsimp only
      split_ifs with hpar hle
      · exact .refl h1 hk hp
      · exact .move h1 hk (by omega) (by omega) (by omega)
          (ih (by omega) (show k / 2 ≤ h.size by omega) (hp.move (by omega) (by omega) (by omega)))
      · exact .refl h1 hk hp

theorem kid_child {h : Heap} {k : ℕ} (hk : 1 ≤ k) (hle : h.kid k ≤ h.size) :
    Child h.size k (h.kid k) ∧
      ∀ j, Child h.size k j → h.time (h.conns (h.kid k)) ≤ h.time (h.conns j) := by
  unfold kid at hle ⊢
  split_ifs at hle ⊢ with hr
  · refine ⟨⟨by omega, hle, by omega⟩, fun j hj => ?_⟩
    have := hj.parent
    obtain rfl | rfl : j = k * 2 ∨ j = k * 2 + 1 := by omega
    · exact hr.2.le
    · exact le_rfl
  · refine ⟨⟨by omega, hle, by omega⟩, fun j hj => ?_⟩
    have := hj.parent
    have := hj.le
    obtain rfl | rfl : j = k * 2 ∨ j = k * 2 + 1 := by omega
    · exact le_rfl
    · exact not_lt.mp fun hlt => hr ⟨by omega, hlt⟩

theorem kid_gt (h : Heap) {k : ℕ} (hk : 1 ≤ k) : k < h.kid k := by
  unfold kid
  split <;> omega

/-- No child: the left one is behind the end. -/
theorem kid_le_of_child {h : Heap} {k j : ℕ} (hj : Child h.size k j) : h.kid k ≤ h.size := by
  have h1 := hj.le
  have h2 := hj.parent
  unfold kid
  split_ifs with hr
  · exact hr.1
  · omega

theorem shiftDownLoop_sifted {c : ConnAddr} (n : ℕ) {k : ℕ} {h : Heap} (h1 : 1 ≤ k)
    (hk : k ≤ h.size) (hp : h.Placed k c) :
    Sifted h k c (shiftDownLoop c n k h).1 (shiftDownLoop c n k h).2 := by
  induction n generalizing k h with
  | zero => exact .refl h1 hk hp
  | succ n ih =>
      unfold shiftDownLoop
      dsimp only
      split_ifs with hstop
      · exact .refl h1 hk hp
      · have hle : h.kid k ≤ h.size := not_lt.mp fun hlt => hstop (.inl hlt)
        have hgt := h.kid_gt h1
        exact .move h1 hk (by omega) hle (by omega)
          (ih (by omega) (show h.kid k ≤ h.size from hle) (hp.move (by omega) hle (by omega)))

/-! ### The sifts -/

theorem shiftUp_eq (h : Heap) (k : ℕ) :
    h.shiftUp k = (shiftUpLoop (h.conns k) k k h).1.put (shiftUpLoop (h.conns k) k k h).2 (h.conns k) :=
  rfl

theorem shiftDown_eq (h : Heap) (k : ℕ) :
    h.shiftDown k =
      (shiftDownLoop (h.conns k) h.size k h).1.put (shiftDownLoop (h.conns k) h.size k h).2
        (h.conns k) :=
  rfl

theorem shiftUpLoop_frame (c : ConnAddr) (n k : ℕ) (h : Heap) :
    (shiftUpLoop c n k h).1.size = h.size ∧ (shiftUpLoop c n k h).1.time = h.time := by
  induction n generalizing k h with
  | zero => exact ⟨rfl, rfl⟩
  | succ n ih =>
      unfold shiftUpLoop
      dsimp only
      split_ifs
      · exact ⟨rfl, rfl⟩
      · exact ih _ _
      · exact ⟨rfl, rfl⟩

theorem shiftDownLoop_frame (c : ConnAddr) (n k : ℕ) (h : Heap) :
    (shiftDownLoop c n k h).1.size = h.size ∧ (shiftDownLoop c n k h).1.time = h.time := by
  induction n generalizing k h with
  | zero => exact ⟨rfl, rfl⟩
  | succ n ih =>
      unfold shiftDownLoop
      dsimp only
      split_ifs
      · exact ⟨rfl, rfl⟩
      · exact ih _ _

@[simp] theorem shiftUp_size (h : Heap) (k : ℕ) : (h.shiftUp k).size = h.size :=
  (shiftUpLoop_frame _ _ _ h).1
@[simp] theorem shiftUp_time (h : Heap) (k : ℕ) : (h.shiftUp k).time = h.time :=
  (shiftUpLoop_frame _ _ _ h).2
@[simp] theorem shiftDown_size (h : Heap) (k : ℕ) : (h.shiftDown k).size = h.size :=
  (shiftDownLoop_frame _ _ _ h).1
@[simp] theorem shiftDown_time (h : Heap) (k : ℕ) : (h.shiftDown k).time = h.time :=
  (shiftDownLoop_frame _ _ _ h).2

/-- What a sift leaves: the same connections with the same times, in known positions. -/
structure Rearranged (h h' : Heap) : Prop where
  size : h'.size = h.size
  time : h'.time = h.time
  indexed : h'.Indexed
  elem : ∀ x, h'.Elem x ↔ h.Elem x

/-- Putting back what a sift took out. -/
theorem Sifted.rearranged {h h' : Heap} {k k' : ℕ} (h1 : 1 ≤ k) (hk : k ≤ h.size)
    (hs : Sifted h k (h.conns k) h' k') : Rearranged h (h'.put k' (h.conns k)) where
  size := hs.size
  time := hs.time
  indexed := hs.placed.put
  elem x := by
    rw [elem_put hs.pos (hs.size ▸ hs.le), hs.elem]
    constructor
    · rintro (rfl | ⟨j, hj1, hj, -, rfl⟩)
      · exact ⟨k, h1, hk, rfl⟩
      · exact ⟨j, hj1, hj, rfl⟩
    · rintro ⟨j, hj1, hj, rfl⟩
      by_cases hjk : j = k
      · exact .inl (hjk ▸ rfl)
      · exact .inr ⟨j, hj1, hj, hjk, rfl⟩

theorem shiftUp_rearranged {h : Heap} {k : ℕ} (h1 : 1 ≤ k) (hk : k ≤ h.size)
    (hp : h.Placed k (h.conns k)) : Rearranged h (h.shiftUp k) := by
  rw [shiftUp_eq]
  exact (shiftUpLoop_sifted k h1 hk hp).rearranged h1 hk

theorem shiftDown_rearranged {h : Heap} {k : ℕ} (h1 : 1 ≤ k) (hk : k ≤ h.size)
    (hp : h.Placed k (h.conns k)) : Rearranged h (h.shiftDown k) := by
  rw [shiftDown_eq]
  exact (shiftDownLoop_sifted h.size h1 hk hp).rearranged h1 hk

/-- A sift up starts where its element is above its parent already: nothing moves. -/
theorem shiftUp_stay {h : Heap} {k : ℕ} (ha : 2 ≤ k → h.time (h.conns (k / 2)) ≤ h.time (h.conns k)) :
    h.shiftUp k = h.put k (h.conns k) := by
  have hloop : shiftUpLoop (h.conns k) k k h = (h, k) := by
    cases k with
    | zero => rfl
    | succ n =>
        unfold shiftUpLoop
        dsimp only
        split_ifs with hpar hle
        · rfl
        · exact absurd (ha (by omega)) hle
        · rfl
  rw [shiftUp_eq, hloop]

/-- A sift down starts where its element is strictly below its children: nothing moves. -/
theorem shiftDown_stay {h : Heap} {k : ℕ}
    (hb : ∀ j, Child h.size k j → h.time (h.conns k) < h.time (h.conns j)) (hk : 1 ≤ k) :
    h.shiftDown k = h.put k (h.conns k) := by
  have hloop : shiftDownLoop (h.conns k) h.size k h = (h, k) := by
    cases hs : h.size with
    | zero => rfl
    | succ n =>
        unfold shiftDownLoop
        dsimp only
        rw [if_pos]
        by_cases hle : h.kid k ≤ h.size
        · exact .inr (hb _ (kid_child hk hle).1)
        · exact .inl (not_le.mp hle)
  rw [shiftDown_eq, hloop]

/-! ### The operations -/

variable {h : Heap} {c : ConnAddr}

/-- What an operation on a registered connection leaves registered. -/
structure Kept (h h' : Heap) : Prop where
  indexed : h'.Indexed
  size : h'.size = h.size
  elem : ∀ x, h'.Elem x ↔ h.Elem x

theorem setTime_indexed (hi : h.Indexed) (t : ℤ) : (h.setTime c t).Indexed := hi

theorem setTime_elem (t : ℤ) (x : ConnAddr) : (h.setTime c t).Elem x ↔ h.Elem x := Iff.rfl

theorem activate_rearranged (hi : h.Indexed) (hc : h.Elem c) (now : ℤ) :
    Rearranged (h.setTime c now) (h.activate now c) := by
  obtain ⟨h1, hk, -⟩ := hi.conns_idx hc
  exact shiftDown_rearranged h1 hk ((setTime_indexed hi now).placed h1 hk)

theorem expire_rearranged (hi : h.Indexed) (hc : h.Elem c) (timeout now : ℤ) :
    Rearranged (h.setTime c (now - timeout - 1)) (h.expire timeout now c) := by
  obtain ⟨h1, hk, -⟩ := hi.conns_idx hc
  exact shiftUp_rearranged h1 hk ((setTime_indexed hi _).placed h1 hk)

theorem activate_kept (hi : h.Indexed) (hc : h.Elem c) (now : ℤ) : Kept h (h.activate now c) :=
  have hr := activate_rearranged hi hc now
  ⟨hr.indexed, hr.size, hr.elem⟩

theorem expire_kept (hi : h.Indexed) (hc : h.Elem c) (timeout now : ℤ) :
    Kept h (h.expire timeout now c) :=
  have hr := expire_rearranged hi hc timeout now
  ⟨hr.indexed, hr.size, hr.elem⟩

theorem activate_time (h : Heap) (now : ℤ) (c : ConnAddr) :
    (h.activate now c).time = Function.update h.time c now := by
  unfold activate
  rw [shiftDown_time, setTime]

theorem expire_time (h : Heap) (timeout now : ℤ) (c : ConnAddr) :
    (h.expire timeout now c).time = Function.update h.time c (now - timeout - 1) := by
  unfold expire
  rw [shiftUp_time, setTime]

theorem register_time {ok : Bool} {h' : Heap} (hreg : h.register c = (ok, h')) : h'.time = h.time := by
  unfold register at hreg
  split_ifs at hreg
  · cases hreg
    rfl
  · cases hreg
    rw [shiftUp_time]

theorem unregister_frame {h' : Heap} (hun : h.unregister c = .ok h') :
    0 < h.size ∧ h'.size = h.size - 1 ∧ h'.time = h.time := by
  unfold unregister at hun
  split_ifs at hun with hpos
  cases hun
  refine ⟨hpos, ?_⟩
  split_ifs
  · rw [shiftDown_size, shiftDown_time]
    exact ⟨rfl, rfl⟩
  · exact ⟨rfl, rfl⟩

/-! ### Registering and unregistering -/

/-- The array with `c` behind the last position. -/
def pushed (h : Heap) (c : ConnAddr) : Heap :=
  { h with conns := Function.update h.conns (h.size + 1) c, size := h.size + 1 }

theorem pushed_conns_lt (h : Heap) (c : ConnAddr) {j : ℕ} (hj : j ≤ h.size) :
    (h.pushed c).conns j = h.conns j := by
  simp [pushed, Function.update_of_ne (show j ≠ h.size + 1 by omega)]

theorem pushed_conns_last (h : Heap) (c : ConnAddr) : (h.pushed c).conns (h.size + 1) = c := by
  simp [pushed]

theorem pushed_elem (h : Heap) (c x : ConnAddr) : (h.pushed c).Elem x ↔ x = c ∨ h.Elem x := by
  constructor
  · rintro ⟨j, h1, hj, rfl⟩
    by_cases hjn : j = h.size + 1
    · exact .inl (hjn ▸ h.pushed_conns_last c)
    · have hj' : j ≤ h.size := by have : j ≤ h.size + 1 := hj; omega
      exact .inr ⟨j, h1, hj', (h.pushed_conns_lt c hj').symm⟩
  · rintro (rfl | ⟨j, h1, hj, rfl⟩)
    · exact ⟨h.size + 1, by omega, le_rfl, h.pushed_conns_last x⟩
    · exact ⟨j, h1, by show j ≤ h.size + 1; omega, h.pushed_conns_lt c hj⟩

theorem pushed_placed (hi : h.Indexed) (hc : ¬ h.Elem c) : (h.pushed c).Placed (h.size + 1) c where
  idx j h1 hj hjn := by
    have hj' : j ≤ h.size := by have : j ≤ h.size + 1 := hj; omega
    rw [pushed_conns_lt h c hj']
    exact hi j h1 hj'
  other j h1 hj hjn e := by
    have hj' : j ≤ h.size := by have : j ≤ h.size + 1 := hj; omega
    rw [pushed_conns_lt h c hj'] at e
    exact hc ⟨j, h1, hj', e⟩

theorem register_of_room (hroom : h.size + 1 ≤ MAX_CONNECTION) :
    h.register c = (true, (h.pushed c).shiftUp (h.size + 1)) := by
  unfold register
  rw [if_neg (by omega)]
  rfl

theorem register_rearranged (hi : h.Indexed) (hc : ¬ h.Elem c) :
    Rearranged (h.pushed c) ((h.pushed c).shiftUp (h.size + 1)) := by
  refine shiftUp_rearranged (by omega) le_rfl ?_
  rw [pushed_conns_last]
  exact pushed_placed hi hc

/-- The array with the last connection in the place of `c`. -/
def replaced (h : Heap) (c : ConnAddr) : Heap :=
  { h.put (h.idx c) (h.conns h.size) with size := h.size - 1 }

theorem replaced_conns_ne (h : Heap) (c : ConnAddr) {j : ℕ} (hj : j ≠ h.idx c) :
    (h.replaced c).conns j = h.conns j := by
  simp [replaced, hj]

theorem replaced_conns_self (h : Heap) (c : ConnAddr) :
    (h.replaced c).conns (h.idx c) = h.conns h.size := by
  simp [replaced]

theorem replaced_idx_self (hi : h.Indexed) (hc : h.Elem c) : (h.replaced c).idx c = h.idx c := by
  obtain ⟨h1, hk, hcc⟩ := hi.conns_idx hc
  unfold replaced Heap.put
  dsimp only
  by_cases hl : c = h.conns h.size
  · rw [← hl, Function.update_self]
  · rw [Function.update_of_ne hl]

theorem unregister_eq (hi : h.Indexed) (hc : h.Elem c) :
    h.unregister c = .ok (if h.size - 1 > 0 then (h.replaced c).shiftDown (h.idx c)
      else h.replaced c) := by
  obtain ⟨h1, hk, hcc⟩ := hi.conns_idx hc
  have hidx := replaced_idx_self hi hc
  unfold unregister
  rw [if_pos (by omega)]
  show Except.ok (if h.size - 1 > 0 then (h.replaced c).shiftDown ((h.replaced c).idx c)
    else h.replaced c) = _
  rw [hidx]

theorem replaced_elem (hi : h.Indexed) (hc : h.Elem c) (x : ConnAddr) :
    (h.replaced c).Elem x ↔ h.Elem x ∧ x ≠ c := by
  obtain ⟨h1, hk, hcc⟩ := hi.conns_idx hc
  have hinj : ∀ i j, 1 ≤ i → i ≤ h.size → 1 ≤ j → j ≤ h.size → h.conns i = h.conns j → i = j :=
    fun i j hi1 hi' hj1 hj e => by rw [← hi i hi1 hi', e, hi j hj1 hj]
  constructor
  · rintro ⟨j, hj1, hj, rfl⟩
    have hj' : j ≤ h.size - 1 := hj
    by_cases hjk : j = h.idx c
    · subst hjk
      rw [replaced_conns_self]
      refine ⟨⟨h.size, by omega, le_rfl, rfl⟩, fun e => ?_⟩
      have := hinj h.size (h.idx c) (by omega) le_rfl h1 hk (e.trans hcc.symm)
      omega
    · rw [replaced_conns_ne h c hjk]
      refine ⟨⟨j, hj1, by omega, rfl⟩, fun e => hjk ?_⟩
      exact hinj j (h.idx c) hj1 (by omega) h1 hk (e.trans hcc.symm)
  · rintro ⟨⟨j, hj1, hj, rfl⟩, hne⟩
    have hjk : j ≠ h.idx c := fun e => hne (e ▸ hcc)
    by_cases hjn : j = h.size
    · refine ⟨h.idx c, h1, ?_, by rw [replaced_conns_self, hjn]⟩
      show h.idx c ≤ h.size - 1
      omega
    · refine ⟨j, hj1, ?_, replaced_conns_ne h c hjk⟩
      show j ≤ h.size - 1
      omega

theorem replaced_indexed (hi : h.Indexed) (hc : h.Elem c) : (h.replaced c).Indexed := by
  obtain ⟨h1, hk, hcc⟩ := hi.conns_idx hc
  intro j hj1 hj
  have hj' : j ≤ h.size - 1 := hj
  by_cases hjk : j = h.idx c
  · rw [hjk, replaced_conns_self]
    simp [replaced, Heap.put]
  · rw [replaced_conns_ne h c hjk]
    have hne : h.conns j ≠ h.conns h.size := fun e => by
      have := hi j hj1 (by omega)
      rw [e, hi h.size (by omega) le_rfl] at this
      omega
    simp only [replaced, Heap.put, Function.update_of_ne hne]
    exact hi j hj1 (by omega)

/-- The last connection is taken away: the sift moves nothing. -/
theorem replaced_shiftDown_last (h : Heap) (c : ConnAddr) (hk : h.idx c = h.size) :
    (h.replaced c).shiftDown h.size = (h.replaced c).put h.size (h.conns h.size) := by
  have hlast : (h.replaced c).conns h.size = h.conns h.size := by
    have := h.replaced_conns_self c
    rwa [hk] at this
  by_cases h0 : h.size = 0
  · have hsize : (h.replaced c).size = 0 := by show h.size - 1 = 0; omega
    rw [shiftDown_eq, hsize, hlast]
    rfl
  · have := shiftDown_stay (h := h.replaced c) (k := h.size) (fun j hj => ?_) (by omega)
    · rwa [hlast] at this
    · have h1 : j ≤ h.size - 1 := hj.le
      have h2 := hj.parent
      omega

/-- **Unregistering** takes away exactly one connection. -/
theorem unregister_spec (hi : h.Indexed) (hc : h.Elem c) :
    ∃ h', h.unregister c = .ok h' ∧ h'.Indexed ∧ h'.size = h.size - 1 ∧ h'.time = h.time ∧
      ∀ x, h'.Elem x ↔ h.Elem x ∧ x ≠ c := by
  obtain ⟨h1, hk, hcc⟩ := hi.conns_idx hc
  have hri := replaced_indexed hi hc
  refine ⟨_, unregister_eq hi hc, ?_⟩
  by_cases h0 : h.size - 1 > 0
  · rw [if_pos h0]
    by_cases hkn : h.idx c = h.size
    · rw [hkn, replaced_shiftDown_last h c hkn]
      have hoff : ∀ j, j ≤ h.size - 1 → j ≠ h.size := fun j hj => by omega
      have hne : ∀ j, 1 ≤ j → j ≤ h.size - 1 → (h.replaced c).conns j ≠ h.conns h.size := by
        intro j hj1 hj e
        have he : (h.replaced c).Elem (h.conns h.size) := ⟨j, hj1, hj, e⟩
        exact ((replaced_elem hi hc _).mp he).2 (by rw [← hkn]; exact hcc)
      refine ⟨fun j hj1 hj => ?_, rfl, rfl, fun x => ?_⟩
      · have hj' : j ≤ h.size - 1 := hj
        rw [put_conns, Function.update_of_ne (hoff j hj')]
        simp only [Heap.put, Function.update_of_ne (hne j hj1 hj')]
        exact hri j hj1 hj
      · rw [← replaced_elem hi hc x]
        constructor
        · rintro ⟨j, hj1, hj, rfl⟩
          exact ⟨j, hj1, hj, by rw [put_conns, Function.update_of_ne (hoff j hj)]⟩
        · rintro ⟨j, hj1, hj, rfl⟩
          exact ⟨j, hj1, hj, by rw [put_conns, Function.update_of_ne (hoff j hj)]⟩
    · have hk' : h.idx c ≤ (h.replaced c).size := by show h.idx c ≤ h.size - 1; omega
      have hr := shiftDown_rearranged h1 hk' (hri.placed h1 hk')
      exact ⟨hr.indexed, hr.size, hr.time, fun x => (hr.elem x).trans (replaced_elem hi hc x)⟩
  · rw [if_neg h0]
    exact ⟨hri, rfl, rfl, replaced_elem hi hc⟩

end Heap

end SyServer
