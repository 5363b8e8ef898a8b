import Mathlib.Tactic

/-! # Binary heaps with a hole

An array `a` of which the positions `1 .. n` form a binary tree: the parent of `k` is `k / 2`.
The heap is in order (`Ordered`) when no key is smaller than its parent's.

A sift takes one element out, which leaves a hole at its position, moves the hole along an edge
by copying a neighbour into it, and at last puts the element into the hole.

* `HoleOrdered`: everything is in order around the hole.
* `HoleOrdered.move_up`, `HoleOrdered.move_down`: a move keeps that.
* `HoleOrdered.fill`: the element may be put where it is between its neighbours.
* `Ordered.above_of_fill`, `Ordered.below_of_fill`: and nowhere else.
* `update_move`: a move exchanges two positions. -/

namespace HoleHeap

variable {α κ : Type} [LinearOrder κ] (key : α → κ)

/-- No key is smaller than its parent's. -/
def Ordered (n : ℕ) (a : ℕ → α) : Prop := ∀ k, 2 ≤ k → k ≤ n → key (a (k / 2)) ≤ key (a k)

/-- `j` is a child of `k` in a heap of `n` positions. -/
structure Child (n k j : ℕ) : Prop where
  two_le : 2 ≤ j
  le : j ≤ n
  parent : j / 2 = k

/-- Every edge that does not touch position `k` is in order, and the neighbours above and below
`k` are in order with each other. -/
structure HoleOrdered (n : ℕ) (a : ℕ → α) (k : ℕ) : Prop where
  off : ∀ j, 2 ≤ j → j ≤ n → j ≠ k → j / 2 ≠ k → key (a (j / 2)) ≤ key (a j)
  bridge : 2 ≤ k → ∀ j, Child n k j → key (a (k / 2)) ≤ key (a j)

variable {key} {n k : ℕ} {a : ℕ → α} {x : α}

/-- The root is a least element. -/
theorem Ordered.root_le (h : Ordered key n a) (hk : 1 ≤ k) (hn : k ≤ n) : key (a 1) ≤ key (a k) := by
  induction k using Nat.strong_induction_on with
  | _ k ih =>
      by_cases h1 : k = 1
      · rw [h1]
      · calc key (a 1) ≤ key (a (k / 2)) := ih (k / 2) (by omega) (by omega) (by omega)
          _ ≤ key (a k) := h k (by omega) hn

/-- Taking an element out leaves the rest in order. -/
theorem Ordered.hole (h : Ordered key n a) (k : ℕ) : HoleOrdered key n a k where
  off j h2 hn _ _ := h j h2 hn
  bridge hk j hj := by
    have hkn : k ≤ n := by have := hj.le; have := hj.parent; omega
    calc key (a (k / 2)) ≤ key (a k) := h k hk hkn
      _ ≤ key (a j) := by
        have := h j hj.two_le hj.le
        rwa [hj.parent] at this

/-- Positions behind the last one do not matter. -/
theorem Ordered.mono {m : ℕ} (h : Ordered key n a) (hm : m ≤ n) : Ordered key m a :=
  fun k h2 hk => h k h2 (hk.trans hm)

theorem Ordered.congr {b : ℕ → α} (h : Ordered key n a) (hb : ∀ k, 1 ≤ k → k ≤ n → b k = a k) :
    Ordered key n b := by
  intro k h2 hk
  rw [hb k (by omega) hk, hb (k / 2) (by omega) (by omega)]
  exact h k h2 hk

theorem Ordered.congr_key {key' : α → κ} (h : Ordered key n a)
    (hkey : ∀ k, 1 ≤ k → k ≤ n → key' (a k) = key (a k)) : Ordered key' n a := by
  intro k h2 hk
  rw [hkey k (by omega) hk, hkey (k / 2) (by omega) (by omega)]
  exact h k h2 hk

/-- The key of the element at the hole does not matter. -/
theorem HoleOrdered.congr_key {key' : α → κ} (h : HoleOrdered key n a k)
    (hkey : ∀ j, 1 ≤ j → j ≤ n → j ≠ k → key' (a j) = key (a j)) : HoleOrdered key' n a k where
  off j h2 hn hj hp := by
    rw [hkey j (by omega) hn hj, hkey (j / 2) (by omega) (by omega) hp]
    exact h.off j h2 hn hj hp
  bridge hk j hj := by
    have h1 := hj.two_le
    have h2 := hj.le
    have h3 := hj.parent
    rw [hkey j (by omega) h2 (by omega), hkey (k / 2) (by omega) (by omega) (by omega)]
    exact h.bridge hk j hj

/-- The element at the hole does not matter. -/
theorem HoleOrdered.congr {b : ℕ → α} (h : HoleOrdered key n a k)
    (hb : ∀ j, 1 ≤ j → j ≤ n → j ≠ k → b j = a j) : HoleOrdered key n b k where
  off j h2 hn hj hp := by
    rw [hb j (by omega) hn hj, hb (j / 2) (by omega) (by omega) hp]
    exact h.off j h2 hn hj hp
  bridge hk j hj := by
    have h1 := hj.two_le
    have h2 := hj.le
    have h3 := hj.parent
    rw [hb j (by omega) h2 (by omega), hb (k / 2) (by omega) (by omega) (by omega)]
    exact h.bridge hk j hj

/-- The hole moves up: the parent comes down. -/
theorem HoleOrdered.move_up (h : HoleOrdered key n a k) (hk : 2 ≤ k) (hn : k ≤ n) :
    HoleOrdered key n (Function.update a k (a (k / 2))) (k / 2) where
  off j h2 hjn hj hp := by
    by_cases hjk : j = k
    · exact absurd (hjk ▸ rfl) hp
    · rw [Function.update_of_ne hjk]
      by_cases hpk : j / 2 = k
      · rw [hpk, Function.update_self]
        exact h.bridge hk j ⟨h2, hjn, hpk⟩
      · rw [Function.update_of_ne hpk]
        exact h.off j h2 hjn hjk hpk
  bridge hk2 j hj := by
    have hpar : key (a (k / 2 / 2)) ≤ key (a (k / 2)) :=
      h.off (k / 2) hk2 (by omega) (by omega) (by omega)
    rw [Function.update_of_ne (by omega : k / 2 / 2 ≠ k)]
    by_cases hjk : j = k
    · rw [hjk, Function.update_self]
      exact hpar
    · rw [Function.update_of_ne hjk]
      have hj2 := hj.parent
      have := h.off j hj.two_le hj.le hjk (by omega)
      rw [hj2] at this
      exact hpar.trans this

/-- The element stays below its new children when the hole moves up past a larger parent. -/
theorem HoleOrdered.below_up (h : HoleOrdered key n a k)
    (hlt : key x ≤ key (a (k / 2))) (j : ℕ) (hj : Child n (k / 2) j) :
    key x ≤ key (Function.update a k (a (k / 2)) j) := by
  by_cases hjk : j = k
  · rw [hjk, Function.update_self]
    exact hlt
  · rw [Function.update_of_ne hjk]
    have h1 := hj.two_le
    have h2 := hj.parent
    have := h.off j h1 hj.le hjk (by omega)
    rw [h2] at this
    exact hlt.trans this

/-- The hole moves down: its smaller child comes up. -/
theorem HoleOrdered.move_down {c : ℕ} (h : HoleOrdered key n a k) (hc : Child n k c)
    (hmin : ∀ j, Child n k j → key (a c) ≤ key (a j)) :
    HoleOrdered key n (Function.update a k (a c)) c where
  off j h2 hjn hj hp := by
    have h1 := hc.two_le
    have h3 := hc.parent
    by_cases hjk : j = k
    · rw [hjk, Function.update_self, Function.update_of_ne (by omega)]
      exact h.bridge (by omega) c hc
    · rw [Function.update_of_ne hjk]
      by_cases hpk : j / 2 = k
      · rw [hpk, Function.update_self]
        exact hmin j ⟨h2, hjn, hpk⟩
      · rw [Function.update_of_ne hpk]
        exact h.off j h2 hjn hjk hpk
  bridge hc2 j hj := by
    have h1 := hc.two_le
    have h3 := hc.parent
    have h4 := hj.parent
    have h5 := hj.two_le
    rw [h3, Function.update_self, Function.update_of_ne (by omega)]
    have := h.off j h5 hj.le (by omega) (by omega)
    rwa [h4] at this

/-- Where the element fits between its neighbours, filling the hole completes the order. -/
theorem HoleOrdered.fill (h : HoleOrdered key n a k)
    (habove : 2 ≤ k → k ≤ n → key (a (k / 2)) ≤ key x)
    (hbelow : ∀ j, Child n k j → key x ≤ key (a j)) :
    Ordered key n (Function.update a k x) := by
  intro j h2 hj
  by_cases hjk : j = k
  · rw [hjk, Function.update_self, Function.update_of_ne (by omega)]
    exact habove (by omega) (by omega)
  · rw [Function.update_of_ne hjk]
    by_cases hpk : j / 2 = k
    · rw [hpk, Function.update_self]
      exact hbelow j ⟨h2, hj, hpk⟩
    · rw [Function.update_of_ne hpk]
      exact h.off j h2 hj hjk hpk

/-- An element in order has its parent above it. -/
theorem Ordered.above_of_fill (h : Ordered key n (Function.update a k x)) (hk : 2 ≤ k)
    (hn : k ≤ n) : key (a (k / 2)) ≤ key x := by
  have := h k hk hn
  rwa [Function.update_self, Function.update_of_ne (by omega)] at this

/-- An element in order has its children below it. -/
theorem Ordered.below_of_fill (h : Ordered key n (Function.update a k x)) (hk : 1 ≤ k) (j : ℕ)
    (hj : Child n k j) : key x ≤ key (a j) := by
  have h1 := hj.two_le
  have h2 := hj.parent
  have := h j h1 hj.le
  rwa [h2, Function.update_self, Function.update_of_ne (by omega)] at this

/-! ### Rearranging -/

/-- A move of the hole exchanges two positions. -/
theorem update_move {j : ℕ} (x : α) (hjk : j ≠ k) :
    Function.update (Function.update a k (a j)) j x = Function.update a k x ∘ Equiv.swap k j := by
  funext i
  rw [Function.comp_apply]
  by_cases hij : i = j
  · rw [hij, Function.update_self, Equiv.swap_apply_right, Function.update_self]
  · rw [Function.update_of_ne hij]
    by_cases hik : i = k
    · rw [hik, Function.update_self, Equiv.swap_apply_left, Function.update_of_ne hjk]
    · rw [Function.update_of_ne hik, Equiv.swap_apply_of_ne_of_ne hik hij, Function.update_of_ne hik]

end HoleHeap
