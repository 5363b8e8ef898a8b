import SyServer.HeapOrder

/-! # The two sifts

`sy_heap_shift_up` and `sy_heap_shift_down` on any array, with one position out of place.  Each moves
a hole from position to position and puts the connection that was taken out where the loop ends.

* `Moved`: what the moves of the hole leave, whatever the loop compares.
* `UpEnds`, `DownEnds`: the tests that end the two loops.
* `sift_correct`: where one key alone may be out of place, the sift in its direction puts the whole
  array in order; each sift permutes the array and keeps the positions known. -/

namespace SyServer

open HoleHeap

namespace Heap

/-! ### One key out of place -/

/-- Only the key at `k` may be too small. -/
structure SmallAt (h : Heap) (k : ℕ) : Prop where
  edges : ∀ j, 2 ≤ j → j ≤ h.size → j ≠ k → h.time (h.conns (j / 2)) ≤ h.time (h.conns j)
  bridge : 2 ≤ k → ∀ j, Child h.size k j → h.time (h.conns (k / 2)) ≤ h.time (h.conns j)

/-- Only the key at `k` may be too large. -/
structure LargeAt (h : Heap) (k : ℕ) : Prop where
  edges : ∀ j, 2 ≤ j → j ≤ h.size → j / 2 ≠ k → h.time (h.conns (j / 2)) ≤ h.time (h.conns j)
  bridge : 2 ≤ k → ∀ j, Child h.size k j → h.time (h.conns (k / 2)) ≤ h.time (h.conns j)

variable {h h' : Heap} {c x : ConnAddr} {j k k' n : ℕ}

theorem SmallAt.hole (hs : h.SmallAt k) : HoleOrdered h.time h.size h.conns k :=
  ⟨fun j h2 hj hjk _ => hs.edges j h2 hj hjk, hs.bridge⟩

theorem SmallAt.below (hs : h.SmallAt k) (hj : Child h.size k j) :
    h.time (h.conns k) ≤ h.time (h.conns j) := by
  have h2 := hj.two_le
  have hp := hj.parent
  have := hs.edges j h2 hj.le (by omega)
  rwa [hp] at this

theorem LargeAt.hole (hs : h.LargeAt k) : HoleOrdered h.time h.size h.conns k :=
  ⟨fun j h2 hj _ hp => hs.edges j h2 hj hp, hs.bridge⟩

/-! ### The moves of the hole -/

/-- From the hole `k` in `h` to the hole `k'` in `h'`: whatever is put into the two holes, the arrays
are the same up to the order. -/
structure Moved (h : Heap) (k : ℕ) (h' : Heap) (k' : ℕ) : Prop where
  size : h'.size = h.size
  pos : 1 ≤ k'
  le : k' ≤ h.size
  perm : ∃ σ : Equiv.Perm ℕ, (∀ i, i = 0 ∨ h.size < i → σ i = i) ∧
    ∀ c, Function.update h'.conns k' c = Function.update h.conns k c ∘ σ
  elem : ∀ x, h'.ElemOff k' x ↔ h.ElemOff k x
  idx : ∀ x, ¬ h.ElemOff k x → h'.idx x = h.idx x

theorem Moved.refl (h1 : 1 ≤ k) (hk : k ≤ h.size) : Moved h k h k :=
  ⟨rfl, h1, hk, ⟨1, fun _ _ => rfl, fun _ => rfl⟩, fun _ => Iff.rfl, fun _ _ => rfl⟩

/-- One move in front. -/
theorem Moved.move (h1 : 1 ≤ k) (hk : k ≤ h.size) (hj1 : 1 ≤ j) (hj : j ≤ h.size) (hjk : j ≠ k)
    (hm : Moved (h.put k (h.conns j)) j h' k') : Moved h k h' k' where
  size := hm.size
  pos := hm.pos
  le := hm.le
  perm := by
    obtain ⟨σ, hfix, hσ⟩ := hm.perm
    refine ⟨σ.trans (Equiv.swap k j), fun i hi => ?_, fun c => ?_⟩
    · rw [Equiv.trans_apply, hfix i hi]
      rcases hi with rfl | hi
      · exact Equiv.swap_apply_of_ne_of_ne (by omega) (by omega)
      · exact Equiv.swap_apply_of_ne_of_ne (by omega) (by omega)
    · rw [hσ c, put_conns, update_move c hjk]
      rfl
  elem x := (hm.elem x).trans (elemOff_move h1 hk hj1 hj hjk x)
  idx x hx := by
    have hne : x ≠ h.conns j := fun e => hx ⟨j, hj1, hj, hjk, e.symm⟩
    rw [hm.idx x fun hoff => hx ((elemOff_move h1 hk hj1 hj hjk x).mp hoff)]
    exact Function.update_of_ne hne _ _

theorem shiftUpLoop_moved (n : ℕ) (h1 : 1 ≤ k) (hk : k ≤ h.size) :
    Moved h k (shiftUpLoop c n k h).1 (shiftUpLoop c n k h).2 := by
  induction n generalizing k h with
  | zero => exact .refl h1 hk
  | succ n ih =>
      unfold shiftUpLoop
      dsimp only
      split_ifs with hpar hle
      · exact .refl h1 hk
      · exact .move h1 hk (by omega) (by omega) (by omega) (ih (by omega) (show k / 2 ≤ h.size by omega))
      · exact .refl h1 hk

theorem shiftDownLoop_moved (n : ℕ) (h1 : 1 ≤ k) (hk : k ≤ h.size) :
    Moved h k (shiftDownLoop c n k h).1 (shiftDownLoop c n k h).2 := by
  induction n generalizing k h with
  | zero => exact .refl h1 hk
  | succ n ih =>
      unfold shiftDownLoop
      dsimp only
      split_ifs with hstop
      · exact .refl h1 hk
      · have hle : h.kid k ≤ h.size := not_lt.mp fun hlt => hstop (.inl hlt)
        have hgt := h.kid_gt h1
        exact .move h1 hk (by omega) hle (by omega) (ih (by omega) hle)

/-! ### The ends of the loops -/

/-- The loop of `sy_heap_shift_up` ends with the hole at `k`: it is the root, or its parent is not
later than `c`. -/
def UpEnds (c : ConnAddr) (h : Heap) (k : ℕ) : Prop :=
  ¬ 0 < k / 2 ∨ h.time (h.conns (k / 2)) ≤ h.time c

/-- The loop of `sy_heap_shift_down` ends with the hole at `k`: it has no child, or `c` is earlier than
the child that would come up. -/
def DownEnds (c : ConnAddr) (h : Heap) (k : ℕ) : Prop :=
  h.size < h.kid k ∨ h.time c < h.time (h.conns (h.kid k))

/-- The position is halved in each round. -/
theorem shiftUpLoop_ends (hn : k ≤ n) : UpEnds c (shiftUpLoop c n k h).1 (shiftUpLoop c n k h).2 := by
  induction n generalizing k h with
  | zero =>
      obtain rfl : k = 0 := by omega
      exact .inl (by simp [shiftUpLoop])
  | succ n ih =>
      unfold shiftUpLoop
      dsimp only
      split_ifs with hpar hle
      · exact .inr hle
      · exact ih (by omega)
      · exact .inl hpar

/-- The position grows in each round. -/
theorem shiftDownLoop_ends (h1 : 1 ≤ k) (hn : h.size < k + n) :
    DownEnds c (shiftDownLoop c n k h).1 (shiftDownLoop c n k h).2 := by
  induction n generalizing k h with
  | zero => exact .inl (hn.trans (h.kid_gt h1))
  | succ n ih =>
      unfold shiftDownLoop
      dsimp only
      split_ifs with hstop
      · exact hstop
      · have hgt := h.kid_gt h1
        exact ih (by omega) (show h.size < h.kid k + n by omega)

/-! ### The sifts -/

/-- What a sift does, whatever the order: it permutes the positions `1 .. size`, and leaves the rest
of the array, the times, and the connections that are not in the array. -/
structure Permutes (h h' : Heap) : Prop where
  size : h'.size = h.size
  time : h'.time = h.time
  perm : ∃ σ : Equiv.Perm ℕ, (∀ i, i = 0 ∨ h.size < i → σ i = i) ∧ h'.conns = h.conns ∘ σ
  others : ∀ x, ¬ h.Elem x → h'.idx x = h.idx x
  indexed : h.Indexed → h'.Indexed

/-- The connection that was taken out is put back. -/
theorem Moved.permutes (h1 : 1 ≤ k) (hk : k ≤ h.size) (hm : Moved h k h' k') (htime : h'.time = h.time)
    (hplaced : h.Placed k (h.conns k) → h'.Placed k' (h.conns k)) :
    Permutes h (h'.put k' (h.conns k)) where
  size := hm.size
  time := htime
  perm := by
    obtain ⟨σ, hfix, hσ⟩ := hm.perm
    refine ⟨σ, hfix, ?_⟩
    rw [put_conns, hσ, Function.update_eq_self]
  others x hx := by
    have hne : x ≠ h.conns k := fun e => hx ⟨k, h1, hk, e.symm⟩
    have hoff : ¬ h.ElemOff k x := fun ⟨j, hj1, hj, _, e⟩ => hx ⟨j, hj1, hj, e⟩
    exact (Function.update_of_ne hne _ _).trans (hm.idx x hoff)
  indexed hi := (hplaced (hi.placed h1 hk)).put

theorem shiftUp_permutes (h1 : 1 ≤ k) (hk : k ≤ h.size) : Permutes h (h.shiftUp k) := by
  rw [shiftUp_eq]
  exact (shiftUpLoop_moved k h1 hk).permutes h1 hk (shiftUpLoop_frame _ _ _ _).2
    fun hp => (shiftUpLoop_sifted k h1 hk hp).placed

theorem shiftDown_permutes (h1 : 1 ≤ k) (hk : k ≤ h.size) : Permutes h (h.shiftDown k) := by
  rw [shiftDown_eq]
  exact (shiftDownLoop_moved h.size h1 hk).permutes h1 hk (shiftDownLoop_frame _ _ _ _).2
    fun hp => (shiftDownLoop_sifted h.size h1 hk hp).placed

theorem SmallAt.shiftUp (h1 : 1 ≤ k) (hk : k ≤ h.size) (hs : h.SmallAt k) : (h.shiftUp k).Sorted := by
  unfold Sorted
  rw [shiftUp_time, shiftUp_size, shiftUp_eq]
  exact shiftUpLoop_spec k h1 hk le_rfl hs.hole fun j hj => hs.below hj

theorem LargeAt.shiftDown (h1 : 1 ≤ k) (hk : k ≤ h.size) (hs : h.LargeAt k) :
    (h.shiftDown k).Sorted := by
  unfold Sorted
  rw [shiftDown_time, shiftDown_size, shiftDown_eq]
  refine shiftDownLoop_spec h.size h.coarser_time h1 (by omega) hs.hole fun h2 _ => ?_
  exact hs.edges k h2 hk (by omega)

/-- **The sifts are correct**: at every position of every array each of them ends, permutes the array
and keeps the positions known; `sy_heap_shift_up` leaves a heap where one key may be too small, and
`sy_heap_shift_down` where one key may be too large. -/
theorem sift_correct (h : Heap) {k : ℕ} (h1 : 1 ≤ k) (hk : k ≤ h.size) :
    (UpEnds (h.conns k) (shiftUpLoop (h.conns k) k k h).1 (shiftUpLoop (h.conns k) k k h).2 ∧
      Permutes h (h.shiftUp k) ∧ (h.SmallAt k → (h.shiftUp k).HeapOrder)) ∧
    (DownEnds (h.conns k) (shiftDownLoop (h.conns k) h.size k h).1
        (shiftDownLoop (h.conns k) h.size k h).2 ∧
      Permutes h (h.shiftDown k) ∧ (h.LargeAt k → (h.shiftDown k).HeapOrder)) := by
  refine ⟨⟨shiftUpLoop_ends le_rfl, shiftUp_permutes h1 hk, fun hs => ?_⟩,
    shiftDownLoop_ends h1 (by omega), shiftDown_permutes h1 hk, fun hs => ?_⟩
  · exact heapOrder_iff_sorted.mpr (hs.shiftUp h1 hk)
  · exact heapOrder_iff_sorted.mpr (hs.shiftDown h1 hk)

/-- Six connections, of which the one at position 2 has a key of its own. -/
def sixWith (t : ℤ) : Heap where
  conns := id
  size := 6
  time := fun c => if c = 2 then t else c
  idx := id

/-- The key at position 2 is too small for its parent, or too large for its children. -/
theorem sift_correct_six :
    ((sixWith 0).shiftUp 2).HeapOrder ∧ ((sixWith 9).shiftDown 2).HeapOrder := by
  refine ⟨(sift_correct (sixWith 0) (by decide) (by decide)).1.2.2 ⟨?_, ?_⟩,
    (sift_correct (sixWith 9) (by decide) (by decide)).2.2.2 ⟨?_, ?_⟩⟩
  · intro j h2 hj hjk
    have hj : j ≤ 6 := hj
    interval_cases j <;> first | exact absurd rfl hjk | decide
  · rintro - j ⟨h2, hj, hp⟩
    have hj : j ≤ 6 := hj
    interval_cases j <;> first | decide | cases hp
  · intro j h2 hj hjk
    have hj : j ≤ 6 := hj
    interval_cases j <;> first | exact absurd rfl hjk | decide
  · rintro - j ⟨h2, hj, hp⟩
    have hj : j ≤ 6 := hj
    interval_cases j <;> decide

end Heap

end SyServer
