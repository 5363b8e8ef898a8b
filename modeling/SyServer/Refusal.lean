import SyServer.Server

/-! # A connection that is refused after it was allocated

`sy_open_connection` and `sy_uwsgi_open_connection` close what they have set up when
`sy_connection_register` or `epoll_ctl` fails, and `sy_close_connection` unregisters through
`c->heap_idx` in both cases.

On a full table nothing was registered, and the last of the others is taken out.  Behind a
registration the new connection is taken out again.  On its way up it may have passed others; each of them
returns to its place only if the sift down that follows takes the way back (`Returns`). -/

namespace SyServer
namespace Heap

/-- The registered connections, their `heap_idx` and `heap_size` are what they were. -/
structure Untouched (h h' : Heap) : Prop where
  size : h'.size = h.size
  elem : ∀ x, h'.Elem x ↔ h.Elem x
  idx : ∀ x, h.Elem x → h'.idx x = h.idx x

/-- The connection above `k` is smallest of what a hole above `k` can take if it stands at `k`:
not later than `last`, which goes down, and preferred to its sibling. -/
def Returns (h : Heap) (last : ConnAddr) (k : ℕ) : Prop :=
  h.time (h.conns (k / 2)) ≤ h.time last ∧
    if k % 2 = 0 then k + 1 ≤ h.size → h.time (h.conns (k / 2)) ≤ h.time (h.conns (k + 1))
    else h.time (h.conns (k / 2)) < h.time (h.conns (k - 1))

/-- Each connection that is passed on the way up from `k`, being later than `t`, returns. -/
def Undone (h : Heap) (t : ℤ) (last : ConnAddr) : ℕ → ℕ → Prop
  | 0, _ => True
  | n + 1, k =>
      k / 2 > 0 → t < h.time (h.conns (k / 2)) → h.Returns last k ∧ Undone h t last n (k / 2)

/-- There is room, and what a connection with time `t` passes on its way up from the end returns. -/
def Restores (h : Heap) (t : ℤ) : Prop :=
  h.size < MAX_CONNECTION ∧ h.Undone t (h.conns ((h.size + 1) / 2)) (h.size + 1) (h.size + 1)

/-- A connection that is not earlier than the one above it passes nothing. -/
theorem restores_of_late {h : Heap} {t : ℤ} (hroom : h.size < MAX_CONNECTION)
    (ht : h.time (h.conns ((h.size + 1) / 2)) ≤ t) : h.Restores t := by
  refine ⟨hroom, ?_⟩
  intro _ hlt
  exact absurd ht (not_le.mpr hlt)

/-! ### Sinking in an array -/

/-- `kid` in an array. -/
def arrayKid (time : ConnAddr → ℤ) (n : ℕ) (f : ℕ → ConnAddr) (k : ℕ) : ℕ :=
  if k * 2 + 1 ≤ n ∧ time (f (k * 2 + 1)) < time (f (k * 2)) then k * 2 + 1 else k * 2

/-- `c` at `k` sinks to its place among the first `n`. -/
inductive Sinks (time : ConnAddr → ℤ) (n : ℕ) (c : ConnAddr) :
    (ℕ → ConnAddr) → ℕ → (ℕ → ConnAddr) → Prop
  | stop {f : ℕ → ConnAddr} {k : ℕ}
      (h : arrayKid time n f k > n ∨ time c < time (f (arrayKid time n f k))) : Sinks time n c f k f
  | move {f g : ℕ → ConnAddr} {k : ℕ}
      (h : ¬(arrayKid time n f k > n ∨ time c < time (f (arrayKid time n f k))))
      (hs : Sinks time n c
        (Function.update (Function.update f k (f (arrayKid time n f k))) (arrayKid time n f k) c)
        (arrayKid time n f k) g) : Sinks time n c f k g

section array

variable {time : ConnAddr → ℤ} {n : ℕ} {c : ConnAddr} {f g : ℕ → ConnAddr} {k : ℕ}

theorem arrayKid_gt (time : ConnAddr → ℤ) (n : ℕ) (f : ℕ → ConnAddr) (hk : 1 ≤ k) : k < arrayKid time n f k := by
  unfold arrayKid
  split_ifs <;> omega

/-- Nothing above the hole moves. -/
theorem Sinks.above (h : Sinks time n c f k g) (hk : 1 ≤ k) : ∀ j, j < k → g j = f j := by
  induction h with
  | stop => exact fun _ _ => rfl
  | @move f g k h hs ih =>
      intro j hj
      have hgt := arrayKid_gt time n f hk
      rw [ih (by omega) j (by omega), Function.update_of_ne (by omega), Function.update_of_ne (by omega)]

/-- The hole keeps `c`, or the child is there. -/
theorem Sinks.here (h : Sinks time n c f k g) (hk : 1 ≤ k) (hf : f k = c) :
    g k = c ∧ (arrayKid time n f k > n ∨ time c < time (f (arrayKid time n f k))) ∨
      g k = f (arrayKid time n f k) ∧
        ¬(arrayKid time n f k > n ∨ time c < time (f (arrayKid time n f k))) := by
  cases h with
  | stop h => exact .inl ⟨hf, h⟩
  | move h hs =>
      right
      refine ⟨?_, h⟩
      have hgt := arrayKid_gt time n f hk
      rw [hs.above (by omega) k hgt, Function.update_of_ne (by omega), Function.update_self]

theorem Sinks.unique {g' : ℕ → ConnAddr} (h : Sinks time n c f k g) (h' : Sinks time n c f k g') :
    g = g' := by
  induction h with
  | stop h =>
      cases h' with
      | stop => rfl
      | move h₁ => exact absurd h h₁
  | move h _ ih =>
      cases h' with
      | stop h₁ => exact absurd h₁ h
      | move _ hs => exact ih hs

theorem arrayKid_update (hk : 1 ≤ k) (x : ConnAddr) :
    arrayKid time n (Function.update f k x) k = arrayKid time n f k := by
  unfold arrayKid
  rw [Function.update_of_ne (by omega), Function.update_of_ne (by omega)]

/-- When the child at `k` is the one that comes up. -/
theorem arrayKid_eq_iff (hk2 : 2 ≤ k) (hk : k ≤ n) :
    arrayKid time n f (k / 2) = k ↔
      if k % 2 = 0 then k + 1 ≤ n → time (f k) ≤ time (f (k + 1)) else time (f k) < time (f (k - 1)) := by
  unfold arrayKid
  by_cases heven : k % 2 = 0
  · rw [if_pos heven, show k / 2 * 2 = k by omega]
    split_ifs with h
    · constructor
      · intro he
        omega
      · intro himp
        exact absurd (himp h.1) (not_le.mpr h.2)
    · simp only [true_iff]
      intro hle
      exact not_lt.mp fun hlt => h ⟨hle, hlt⟩
  · rw [if_neg heven, show k / 2 * 2 + 1 = k by omega, show k / 2 * 2 = k - 1 by omega]
    split_ifs with h
    · simp only [h.2]
    · constructor
      · intro he
        omega
      · intro hlt
        exact absurd ⟨hk, hlt⟩ h

end array

/-- The loop of `sy_heap_shift_down` sinks its connection. -/
theorem shiftDownLoop_sinks {c : ConnAddr} (m : ℕ) {k : ℕ} {h : Heap} (hk : 1 ≤ k)
    (hm : h.size < k + m) :
    Sinks h.time h.size c (Function.update h.conns k c) k
      (Function.update (shiftDownLoop c m k h).1.conns (shiftDownLoop c m k h).2 c) := by
  induction m generalizing k h with
  | zero =>
      apply Sinks.stop
      left
      have hgt := arrayKid_gt h.time h.size (Function.update h.conns k c) hk
      omega
  | succ m ih =>
      have hgt := kid_gt h hk
      have hkid : arrayKid h.time h.size (Function.update h.conns k c) k = h.kid k :=
        arrayKid_update hk c
      have hread : Function.update h.conns k c (h.kid k) = h.conns (h.kid k) :=
        Function.update_of_ne (by omega) _ _
      unfold shiftDownLoop
      dsimp only
      split_ifs with hstop
      · apply Sinks.stop
        rw [hkid, hread]
        exact hstop
      · apply Sinks.move
        · rw [hkid, hread]
          exact hstop
        · rw [hkid, hread, Function.update_idem]
          exact ih (h := h.put k (h.conns (h.kid k))) (by omega) (by show h.size < _; omega)

/-! ### Up and down again -/

section undo

variable {h : Heap} {a last : ConnAddr} {t : ℤ}

/-- The arrays agree on what is registered. -/
def Agrees (h : Heap) (f : ℕ → ConnAddr) : Prop := ∀ j, 1 ≤ j → j ≤ h.size → f j = h.conns j

/-- When `last` sinks from `k`, everything is in its place. -/
def Settles (h : Heap) (last : ConnAddr) (f : ℕ → ConnAddr) (k : ℕ) : Prop :=
  ∀ g, Sinks h.time h.size last f k g → h.Agrees g

theorem Indexed.injective (hi : h.Indexed) {i j : ℕ} (hi1 : 1 ≤ i) (hi2 : i ≤ h.size) (hj1 : 1 ≤ j)
    (hj2 : j ≤ h.size) (he : h.conns i = h.conns j) : i = j := by
  rw [← hi i hi1 hi2, he, hi j hj1 hj2]

/-- Something sinks from every place. -/
theorem sinks_exists (h : Heap) (c : ConnAddr) {f : ℕ → ConnAddr} {k : ℕ} (hk : 1 ≤ k) (hf : f k = c) :
    ∃ g, Sinks h.time h.size c f k g := by
  have hs := shiftDownLoop_sinks (c := c) h.size (h := { h with conns := f }) hk (by show h.size < _; omega)
  rw [show Function.update f k c = f by rw [← hf, Function.update_eq_self]] at hs
  exact ⟨_, hs⟩

/-- One move up, from `k` to its parent, is taken back exactly if the connection that was passed
returns. -/
theorem settles_step (hi : h.Indexed) {f : ℕ → ConnAddr} {k : ℕ} (hk2 : 2 ≤ k)
    (hk : k ≤ (h.size + 1) / 2) (hlast : last = h.conns ((h.size + 1) / 2))
    (hf : ∀ x, 1 ≤ x → x < 2 * k → x ≠ k → f x = h.conns x) :
    h.Settles last (Function.update (Function.update f k (f (k / 2))) (k / 2) last) (k / 2) ↔
      h.Returns last k ∧ h.Settles last (Function.update f k last) k := by
  have hx : f (k / 2) = h.conns (k / 2) := hf _ (by omega) (by omega) (by omega)
  rw [hx]
  generalize hf₁ : Function.update (Function.update f k (h.conns (k / 2))) (k / 2) last = f₁
  have hhole : f₁ (k / 2) = last := by
    rw [← hf₁, Function.update_self]
  have hpassed : f₁ k = h.conns (k / 2) := by
    rw [← hf₁, Function.update_of_ne (by omega), Function.update_self]
  have hsibling : ∀ x, x ≠ k → 2 ≤ x → x / 2 = k / 2 → f₁ x = h.conns x := by
    intro x hxk hx2 hpar
    rw [← hf₁, Function.update_of_ne (by omega), Function.update_of_ne hxk]
    exact hf x (by omega) (by omega) hxk
  -- the child that comes up is the one that was passed
  have hreturns : h.Returns last k ↔ arrayKid h.time h.size f₁ (k / 2) = k ∧
      h.time (h.conns (k / 2)) ≤ h.time last := by
    unfold Returns
    rw [arrayKid_eq_iff hk2 (by omega), hpassed, and_comm]
    by_cases heven : k % 2 = 0
    · rw [if_pos heven, if_pos heven, hsibling (k + 1) (by omega) (by omega) (by omega)]
    · rw [if_neg heven, if_neg heven, hsibling (k - 1) (by omega) (by omega) (by omega)]
  have hback : Function.update (Function.update f₁ (k / 2) (h.conns (k / 2))) k last =
      Function.update f k last := by
    rw [← hf₁, Function.update_idem]
    funext x
    by_cases hxk : x = k
    · rw [hxk, Function.update_self, Function.update_self]
    · rw [Function.update_of_ne hxk, Function.update_of_ne hxk]
      by_cases hxp : x = k / 2
      · rw [hxp, Function.update_self, hx]
      · rw [Function.update_of_ne hxp, Function.update_of_ne hxk]
  rw [hreturns]
  constructor
  · intro hall
    have hret : arrayKid h.time h.size f₁ (k / 2) = k ∧ h.time (h.conns (k / 2)) ≤ h.time last := by
      obtain ⟨g, hg⟩ := sinks_exists h last (by omega) hhole
      have hagree := hall g hg (k / 2) (by omega) (by omega)
      rcases hg.here (by omega) hhole with ⟨hstay, -⟩ | ⟨hup, hgo⟩
      · -- `last` stays where another connection belongs
        have := hi.injective (by omega) (by omega) (by omega) (by omega)
          ((hlast ▸ hstay).symm.trans hagree)
        omega
      · obtain ⟨hle, htime⟩ := not_or.mp hgo
        by_cases hkid : arrayKid h.time h.size f₁ (k / 2) = k
        · rw [hkid, hpassed] at htime
          exact ⟨hkid, not_lt.mp htime⟩
        · -- the sibling comes up
          have hpar : arrayKid h.time h.size f₁ (k / 2) / 2 = k / 2 := by
            unfold arrayKid
            split_ifs <;> omega
          have hgt := arrayKid_gt h.time h.size f₁ (k := k / 2) (by omega)
          rw [hsibling _ hkid (by omega) hpar] at hup
          have := hi.injective (by omega) (by omega) (by omega) (by omega) (hup.symm.trans hagree)
          omega
    refine ⟨hret, ?_⟩
    intro g hg
    apply hall g
    apply Sinks.move
    · rw [hret.1, hpassed]
      exact not_or.mpr ⟨by omega, not_lt.mpr hret.2⟩
    · rw [hret.1, hpassed, hback]
      exact hg
  · rintro ⟨⟨hkid, htime⟩, hall⟩ g hg
    cases hg with
    | stop hstop =>
        rw [hkid, hpassed] at hstop
        rcases hstop with hgt | hlt
        · omega
        · exact absurd htime (not_le.mpr hlt)
    | move hgo hs =>
        rw [hkid, hpassed, hback] at hs
        exact hall g hs

/-- The whole way up is taken back exactly if everything that was passed returns. -/
theorem settles_climb (hi : h.Indexed) (ht : h.time a = t)
    (hlast : last = h.conns ((h.size + 1) / 2)) (m : ℕ) {k : ℕ} {u : Heap} (htime : u.time = h.time)
    (hk1 : 1 ≤ k) (hk : k ≤ (h.size + 1) / 2)
    (hu : ∀ x, 1 ≤ x → x < 2 * k → x ≠ k → u.conns x = h.conns x) :
    h.Settles last (Function.update (shiftUpLoop a m k u).1.conns (shiftUpLoop a m k u).2 last)
        (shiftUpLoop a m k u).2 ↔
      h.Undone t last m k ∧ h.Settles last (Function.update u.conns k last) k := by
  induction m generalizing k u with
  | zero => simp [shiftUpLoop, Undone]
  | succ m ih =>
      unfold shiftUpLoop Undone
      dsimp only
      by_cases hpar : k / 2 > 0
      · have hx : u.conns (k / 2) = h.conns (k / 2) := hu _ (by omega) (by omega) (by omega)
        rw [if_pos hpar, hx, htime, ht]
        by_cases hle : t ≥ h.time (h.conns (k / 2))
        · rw [if_pos hle]
          simp [not_lt.mpr hle]
        · rw [if_neg hle, ih (u := u.put k (h.conns (k / 2))) htime (by omega) (by omega)]
          · have hstep := settles_step hi (by omega) hk hlast hu
            rw [hx] at hstep
            rw [put_conns, hstep]
            simp only [hpar, not_le.mp hle, true_implies]
            tauto
          · intro x hx1 hx2 _
            rw [put_conns, Function.update_of_ne (by omega)]
            exact hu x hx1 (by omega) (by omega)
      · rw [if_neg hpar]
        simp [hpar]

/-- Behind the hole the loop changes nothing. -/
theorem shiftUpLoop_below (m : ℕ) {k : ℕ} {u : Heap} {x : ℕ} (hx : k < x) :
    (shiftUpLoop a m k u).1.conns x = u.conns x ∧ (shiftUpLoop a m k u).2 ≤ k := by
  induction m generalizing k u with
  | zero => exact ⟨rfl, le_rfl⟩
  | succ m ih =>
      unfold shiftUpLoop
      dsimp only
      split_ifs with hpar hle
      · exact ⟨rfl, le_rfl⟩
      · obtain ⟨h1, h2⟩ := ih (k := k / 2) (u := u.put k (u.conns (k / 2))) (by omega)
        refine ⟨?_, by omega⟩
        rw [h1, put_conns, Function.update_of_ne (by omega)]
      · exact ⟨rfl, le_rfl⟩

/-- From the end: `last` is at its place, and stays there if its sibling is later. -/
theorem settles_end (hi : h.Indexed) (hlast : last = h.conns ((h.size + 1) / 2)) (hn : 1 ≤ h.size)
    {f : ℕ → ConnAddr} (hf : h.Agrees f) :
    h.Settles last f ((h.size + 1) / 2) ↔ h.Returns last (h.size + 1) := by
  have hhole : f ((h.size + 1) / 2) = last := by
    rw [hlast]
    exact hf _ (by omega) (by omega)
  unfold Returns
  rw [← hlast]
  by_cases heven : (h.size + 1) % 2 = 0
  · -- the last position has no sibling
    rw [if_pos heven]
    simp only [le_refl, true_and, show ¬ h.size + 1 + 1 ≤ h.size by omega, false_implies, iff_true]
    intro g hg
    have hkid : arrayKid h.time h.size f ((h.size + 1) / 2) = h.size + 1 := by
      unfold arrayKid
      rw [if_neg (by omega)]
      omega
    cases hg with
    | stop => exact hf
    | move hgo => exact absurd (.inl (by omega)) hgo
  · rw [if_neg heven]
    have hkid : arrayKid h.time h.size f ((h.size + 1) / 2) = h.size := by
      unfold arrayKid
      rw [if_neg (by omega)]
      omega
    have hread : f h.size = h.conns h.size := hf _ hn le_rfl
    simp only [le_refl, true_and, Nat.add_sub_cancel]
    constructor
    · intro hall
      obtain ⟨g, hg⟩ := sinks_exists h last (by omega) hhole
      rcases hg.here (by omega) hhole with ⟨-, hstop⟩ | ⟨hup, -⟩
      · rw [hkid, hread] at hstop
        exact hstop.resolve_left (lt_irrefl _)
      · have hagree := hall g hg ((h.size + 1) / 2) (by omega) (by omega)
        rw [hkid, hread] at hup
        have := hi.injective hn le_rfl (by omega) (by omega) (hup.symm.trans hagree)
        omega
    · intro hlt g hg
      cases hg with
      | stop => exact hf
      | move hgo =>
          rw [hkid, hread] at hgo
          exact absurd (.inr hlt) hgo

/-- What is registered is where it was exactly if the arrays agree. -/
theorem untouched_iff {h' : Heap} (hi : h.Indexed) (hi' : h'.Indexed) (hsize : h'.size = h.size)
    (helem : ∀ x, h'.Elem x ↔ h.Elem x) : Untouched h h' ↔ h.Agrees h'.conns := by
  constructor
  · intro hu j hj1 hj
    have hx : h.Elem (h.conns j) := ⟨j, hj1, hj, rfl⟩
    have hat := (hi'.conns_idx ((helem _).mpr hx)).2.2
    rwa [hu.idx _ hx, hi j hj1 hj] at hat
  · intro hagree
    refine ⟨hsize, helem, ?_⟩
    intro x hx
    obtain ⟨hx1, hx2, hxc⟩ := hi.conns_idx hx
    have hat := hagree _ hx1 hx2
    rw [hxc] at hat
    rw [← hi' (h.idx x) hx1 (hsize ▸ hx2), hat]

/-- Unregistering: the last connection sinks from the place that was given up. -/
theorem replaced_sinks (hk : 1 ≤ h.idx a) :
    Sinks h.time (h.size - 1) (h.conns h.size)
      (Function.update h.conns (h.idx a) (h.conns h.size)) (h.idx a)
      ((h.replaced a).shiftDown (h.idx a)).conns := by
  have hsinks := shiftDownLoop_sinks (c := h.conns h.size) (h.size - 1) (h := h.replaced a) hk
    (show h.size - 1 < _ by omega)
  have harray : Function.update (h.replaced a).conns (h.idx a) (h.conns h.size) =
      Function.update h.conns (h.idx a) (h.conns h.size) := by
    funext x
    by_cases hx : x = h.idx a
    · rw [hx, Function.update_self, Function.update_self]
    · rw [Function.update_of_ne hx, Function.update_of_ne hx, replaced_conns_ne _ _ hx]
  rw [harray] at hsinks
  rw [shiftDown_eq, replaced_conns_self, put_conns]
  exact hsinks

/-- What is passed on the way up from the end: nothing, or the connection above the end and what
is passed from there. -/
theorem pushed_climb (ht : h.time a = t) (hn : 1 ≤ h.size) :
    h.time (h.conns ((h.size + 1) / 2)) ≤ t ∧
        shiftUpLoop a (h.size + 1) (h.size + 1) (h.pushed a) = (h.pushed a, h.size + 1) ∨
      t < h.time (h.conns ((h.size + 1) / 2)) ∧
        shiftUpLoop a (h.size + 1) (h.size + 1) (h.pushed a) =
          shiftUpLoop a h.size ((h.size + 1) / 2)
            ((h.pushed a).put (h.size + 1) (h.conns ((h.size + 1) / 2))) := by
  rw [shiftUpLoop]
  dsimp only
  rw [if_pos (by omega), pushed_conns_lt h a (by omega)]
  change _ ∧ (if h.time a ≥ h.time _ then _ else _) = _ ∨ _ ∧ (if h.time a ≥ h.time _ then _ else _) = _
  rw [ht]
  by_cases hle : t ≥ h.time (h.conns ((h.size + 1) / 2))
  · exact .inl ⟨hle, if_pos hle⟩
  · exact .inr ⟨not_le.mp hle, if_neg hle⟩

/-- The new connection has come to `k`, and the last one sinks from there. -/
theorem settles_registered (hi : h.Indexed) (ht : h.time a = t) (hn : 1 ≤ h.size) {u : Heap} {k : ℕ}
    (hloop : shiftUpLoop a (h.size + 1) (h.size + 1) (h.pushed a) = (u, k)) :
    (∀ g, Sinks h.time h.size ((u.put k a).conns (h.size + 1))
        (Function.update (u.put k a).conns k ((u.put k a).conns (h.size + 1))) k g → h.Agrees g) ↔
      h.Undone t (h.conns ((h.size + 1) / 2)) (h.size + 1) (h.size + 1) := by
  unfold Undone
  rcases pushed_climb ht hn with ⟨hle, hstay⟩ | ⟨hlt, hup⟩
  · -- it stays at the end, and nothing was moved
    rw [hloop] at hstay
    cases hstay
    simp only [not_lt.mpr hle, false_implies, implies_true, iff_true]
    intro g hg j hj1 hj
    rw [hg.above (by omega) j (by omega), Function.update_of_ne (by omega), put_conns,
      Function.update_of_ne (by omega), pushed_conns_lt h a hj]
  · -- the connection above the end is the last one now
    rw [hloop] at hup
    have hbelow : ∀ x, 1 ≤ x → x ≤ h.size →
        ((h.pushed a).put (h.size + 1) (h.conns ((h.size + 1) / 2))).conns x = h.conns x := by
      intro x _ hx
      rw [put_conns, Function.update_of_ne (by omega), pushed_conns_lt h a hx]
    obtain ⟨hend, hk⟩ := shiftUpLoop_below (a := a) h.size
      (u := (h.pushed a).put (h.size + 1) (h.conns ((h.size + 1) / 2)))
      (show (h.size + 1) / 2 < h.size + 1 by omega)
    have hclimb := settles_climb hi ht rfl h.size (k := (h.size + 1) / 2)
      (u := (h.pushed a).put (h.size + 1) (h.conns ((h.size + 1) / 2))) rfl (by omega) le_rfl
      (fun x hx1 hx2 _ => hbelow x hx1 (by omega))
    have hagree : h.Agrees (Function.update ((h.pushed a).put (h.size + 1)
        (h.conns ((h.size + 1) / 2))).conns ((h.size + 1) / 2) (h.conns ((h.size + 1) / 2))) := by
      intro j hj1 hj
      by_cases hjp : j = (h.size + 1) / 2
      · rw [hjp, Function.update_self]
      · rw [Function.update_of_ne hjp, hbelow j hj1 hj]
    rw [settles_end hi rfl hn hagree, ← hup] at hclimb
    rw [← hup] at hend hk
    have hlast : (u.put k a).conns (h.size + 1) = h.conns ((h.size + 1) / 2) := by
      rw [put_conns, Function.update_of_ne (show h.size + 1 ≠ k by omega)]
      refine hend.trans ?_
      rw [put_conns, Function.update_self]
    rw [hlast, put_conns, Function.update_idem]
    simp only [show (h.size + 1) / 2 > 0 by omega, hlt, true_implies]
    exact hclimb.trans and_comm

/-- A registration that is taken back at once. -/
theorem unregister_registered (hi : h.Indexed) (hnew : ¬ h.Elem a) (ht : h.time a = t) {h' : Heap}
    (hun : ((h.pushed a).shiftUp (h.size + 1)).unregister a = .ok h') :
    Untouched h h' ↔ h.Undone t (h.conns ((h.size + 1) / 2)) (h.size + 1) (h.size + 1) := by
  have hreg := register_rearranged hi hnew
  have hin : ((h.pushed a).shiftUp (h.size + 1)).Elem a :=
    (hreg.elem a).mpr ((pushed_elem h a a).mpr (.inl rfl))
  obtain ⟨h'', hun', hi', hsize', -, helem'⟩ := unregister_spec hreg.indexed hin
  obtain rfl : h'' = h' := Except.ok.inj (hun'.symm.trans hun)
  have hsize : h''.size = h.size := by
    rw [hsize', hreg.size]
    exact Nat.add_sub_cancel _ _
  have helem : ∀ x, h''.Elem x ↔ h.Elem x := by
    intro x
    rw [helem', hreg.elem, pushed_elem]
    constructor
    · rintro ⟨rfl | hx, hne⟩
      · exact absurd rfl hne
      · exact hx
    · intro hx
      refine ⟨.inr hx, ?_⟩
      rintro rfl
      exact hnew hx
  rw [untouched_iff hi hi' hsize helem]
  rcases Nat.eq_zero_or_pos h.size with hn | hn
  · -- there was no other connection
    have hnone : Undone h t (h.conns ((h.size + 1) / 2)) (h.size + 1) (h.size + 1) := by
      intro hpar
      omega
    simp only [hnone, iff_true]
    intro j hj1 hj
    omega
  · obtain ⟨u, k, hloop⟩ : ∃ u k, shiftUpLoop a (h.size + 1) (h.size + 1) (h.pushed a) = (u, k) :=
      ⟨_, _, rfl⟩
    have hup : (h.pushed a).shiftUp (h.size + 1) = u.put k a := by
      rw [shiftUp_eq, pushed_conns_last, hloop]
    rw [unregister_eq hreg.indexed hin, if_pos (by rw [hreg.size]; show h.size + 1 - 1 > 0; omega)] at hun
    cases hun
    rw [hup] at hreg hin ⊢
    have hidx : (u.put k a).idx a = k := Function.update_self _ _ _
    have hsinks := replaced_sinks (h := u.put k a) (hreg.indexed.conns_idx hin).1
    rw [show (u.put k a).size = h.size + 1 from hreg.size, show (u.put k a).time = h.time from hreg.time,
      Nat.add_sub_cancel, hidx] at hsinks
    rw [hidx, ← settles_registered hi ht hn hloop]
    constructor
    · intro hagree g hg
      rwa [← hsinks.unique hg]
    · intro hall
      exact hall _ hsinks

/-! ### The two sides of a refusal -/

/-- The time of the new connection is not read. -/
theorem undone_setTime (hnew : ¬ h.Elem a) (m : ℕ) {k : ℕ} (hk : k ≤ h.size + 1) :
    (h.setTime a t).Undone t (h.conns ((h.size + 1) / 2)) m k ↔
      h.Undone t (h.conns ((h.size + 1) / 2)) m k := by
  have htime : ∀ j, 1 ≤ j → j ≤ h.size → (h.setTime a t).time (h.conns j) = h.time (h.conns j) := by
    intro j hj1 hj
    apply setTime_time_ne
    intro he
    exact hnew ⟨j, hj1, hj, he⟩
  induction m generalizing k with
  | zero => exact Iff.rfl
  | succ m ih =>
      unfold Undone Returns
      apply imp_congr_right
      intro hpar
      have hsibling : ∀ p : ℤ → Prop, (k + 1 ≤ h.size → p ((h.setTime a t).time (h.conns (k + 1)))) ↔
          (k + 1 ≤ h.size → p (h.time (h.conns (k + 1)))) := by
        intro p
        apply imp_congr_right
        intro hle
        rw [htime _ (by omega) hle]
      rw [setTime_conns, setTime_size, htime _ hpar (by omega), htime _ (by omega) (by omega)]
      apply imp_congr_right
      intro _
      apply and_congr _ (ih (by omega))
      rw [hsibling]
      by_cases heven : k % 2 = 0
      · rw [if_pos heven, if_pos heven]
      · rw [if_neg heven, if_neg heven, htime (k - 1) (by omega) (by omega)]

/-- A connection is taken out again, behind a registration or a full table. -/
theorem refusal_untouched (hi : h.Indexed) (hnew : ¬ h.Elem a) {ok : Bool} {hr h' : Heap}
    (hreg : (h.setTime a t).register a = (ok, hr)) (hun : hr.unregister a = .ok h') :
    Untouched h h' ↔ h.Restores t := by
  unfold register at hreg
  split_ifs at hreg with hfull
  · -- nothing was registered
    cases hreg
    obtain ⟨hpos, hsize, -⟩ := unregister_frame hun
    rw [setTime_size] at hfull hpos hsize
    constructor
    · intro hu
      have := hu.size
      omega
    · intro hres
      have := hres.1
      omega
  · rw [setTime_size] at hfull
    cases hreg
    have hback := unregister_registered (h := h.setTime a t) (a := a) hi hnew (setTime_time h a t) hun
    unfold Restores
    rw [← undone_setTime hnew _ le_rfl]
    constructor
    · intro hu
      exact ⟨by omega, hback.mp ⟨hu.size, hu.elem, hu.idx⟩⟩
    · intro hres
      obtain ⟨hsize, helem, hidx⟩ := hback.mpr hres.2
      exact ⟨hsize, helem, hidx⟩

end undo

end Heap

/-! ### The two functions -/

namespace Server

theorem settled_closeConnection_heap {v : Server} {a : ConnAddr} {h : Heap}
    (hside : (v.conns a).side = .front) (huc : (v.reqs (v.conns a).r).uc = none)
    (hun : v.g.heap.unregister a = .ok h) : (v.settled (v.closeConnection a)).g.heap = h := by
  have hclose : v.closeConnection a = (v.closeFront a) := by
    unfold closeConnection
    rw [hside]
  rw [hclose]
  unfold closeFront closeUpstream
  rw [hun]
  dsimp only [bind, Except.bind]
  rw [huc]
  rfl

/-- A call of `sy_open_connection` that returns `NULL` unregisters its connection. -/
theorem openConnection_refused_heap {v : Server} {o : Opening}
    (hnull : ((v.g.heap.setTime v.g.pool.alloc.1 o.now).register v.g.pool.alloc.1).1 = false ∨
      o.epoll = false) :
    ∃ ok hr, (v.g.heap.setTime v.g.pool.alloc.1 o.now).register v.g.pool.alloc.1 = (ok, hr) ∧
      hr.unregister v.g.pool.alloc.1 = .ok (v.openConnection o).g.heap := by
  obtain ⟨ok, hr, hreg⟩ : ∃ ok hr,
      (v.g.heap.setTime v.g.pool.alloc.1 o.now).register v.g.pool.alloc.1 = (ok, hr) := ⟨_, _, rfl⟩
  refine ⟨ok, hr, hreg, ?_⟩
  have hpos : 0 < hr.size := by
    unfold Heap.register at hreg
    split_ifs at hreg with hfull
    · cases hreg
      rw [Heap.setTime_size] at hfull ⊢
      have : MAX_CONNECTION = 8192 := rfl
      omega
    · cases hreg
      rw [Heap.shiftUp_size]
      exact Nat.succ_pos _
  obtain ⟨h', hun⟩ : ∃ h', hr.unregister v.g.pool.alloc.1 = .ok h' := by
    unfold Heap.unregister
    rw [if_pos hpos]
    exact ⟨_, rfl⟩
  rw [hun]
  rw [hreg] at hnull
  unfold openConnection setUp
  cases ha : v.g.pool.alloc with
  | mk a pool =>
      cases hq : v.reqPool.alloc with
      | mk q reqPool =>
          rw [ha] at hreg hun
          dsimp only [Shared.openFd] at hreg hun ⊢
          rw [hreg]
          cases ok with
          | false =>
              have hsame : hr = v.g.heap.setTime a o.now := by
                unfold Heap.register at hreg
                split_ifs at hreg
                · cases hreg
                  rfl
                · cases hreg
              subst hsame
              dsimp only
              rw [settled_closeConnection_heap (h := h') _ _ hun]
              · simp
              · simp [requestInit]
          | true =>
              have hepoll : o.epoll = false := hnull.resolve_left (by simp)
              dsimp only
              rw [hepoll, if_neg (by simp), settled_closeConnection_heap (h := h') _ _ hun]
              · simp
              · simp [requestInit]

end Server

/-- So does a call of `sy_uwsgi_open_connection` behind a successful `connect`. -/
theorem uwsgiOpenConnection_refused_heap {e : Upstream} {s s' : Session} (hpton : e.pton = true)
    (hconnect : e.connect = true) (h : uwsgiOpenConnection e true s = .ok (none, s')) :
    ∃ ok hr, (s.g.heap.setTime s.g.pool.alloc.1 e.now).register s.g.pool.alloc.1 = (ok, hr) ∧
      hr.unregister s.g.pool.alloc.1 = .ok s'.g.heap := by
  obtain ⟨ok, hr, hreg⟩ : ∃ ok hr,
      (s.g.heap.setTime s.g.pool.alloc.1 e.now).register s.g.pool.alloc.1 = (ok, hr) := ⟨_, _, rfl⟩
  refine ⟨ok, hr, hreg, ?_⟩
  unfold uwsgiOpenConnection at h
  rw [hpton, hconnect, if_neg (by simp)] at h
  dsimp only [Shared.openFd] at h
  rw [if_neg (by simp)] at h
  rw [hreg] at h
  cases ok with
  | false =>
      have hsame : hr = s.g.heap.setTime s.g.pool.alloc.1 e.now := by
        unfold Heap.register at hreg
        split_ifs at hreg
        · cases hreg
          rfl
        · cases hreg
      subst hsame
      obtain ⟨g, hg, h2⟩ := bind_ok h
      obtain ⟨heap, hun, rfl⟩ := closeBack_ok hg
      cases h2
      exact hun
  | true =>
      dsimp only at h
      split_ifs at h
      · obtain ⟨g, hg, h2⟩ := bind_ok h
        obtain ⟨heap, hun, rfl⟩ := closeBack_ok hg
        cases h2
        exact hun
      · cases h

/-- **A connection that is refused after it was allocated** leaves the others as they were exactly
if there was room and every connection that it passed on its way up returns. -/
theorem refused_untouched {g : Shared} (hi : g.heap.Indexed) (hnew : ¬ g.heap.Elem g.pool.alloc.1) :
    (∀ (v : Server) (o : Opening), v.g = g →
      ((g.heap.setTime g.pool.alloc.1 o.now).register g.pool.alloc.1).1 = false ∨ o.epoll = false →
        (g.heap.Untouched (v.openConnection o).g.heap ↔ g.heap.Restores o.now)) ∧
    ∀ (e : Upstream) (s s' : Session), s.g = g → e.pton = true → e.connect = true →
      uwsgiOpenConnection e true s = .ok (none, s') →
        (g.heap.Untouched s'.g.heap ↔ g.heap.Restores e.now) := by
  constructor
  · rintro v o rfl hnull
    obtain ⟨ok, hr, hreg, hun⟩ := Server.openConnection_refused_heap hnull
    exact Heap.refusal_untouched hi hnew hreg hun
  · rintro e s s' rfl hpton hconnect h
    obtain ⟨ok, hr, hreg, hun⟩ := uwsgiOpenConnection_refused_heap hpton hconnect h
    exact Heap.refusal_untouched hi hnew hreg hun

/-- A worker with three registered connections.  The object handed out next was in use before, and
its `heap_idx` still says 2. -/
def Server.attended : Server :=
  { Server.boot with
    conns := fun a => if a = 1 then ⟨11, .front, true, false, 1⟩ else .unset
    g := ⟨⟨[4], 5⟩, ⟨fun k => if k ≤ 3 then k else 0, 3, fun a => 10 * a, fun a => if a = 4 then 2 else a⟩,
      false, []⟩ }

/-- A client that is earlier than two of the three is refused by `epoll_ctl`, and an upstream that
is later than all. -/
theorem refused_untouched_recycled :
    Server.attended.g.heap.Untouched (Server.attended.openConnection ⟨5, false, 5⟩).g.heap ∧
      ∃ s', uwsgiOpenConnection ⟨6, true, true, false, 50⟩ true (Server.attended.session 1) = .ok (none, s') ∧
        Server.attended.g.heap.Untouched s'.g.heap := by
  have hindexed : Server.attended.g.heap.Indexed := by
    intro j hj1 hj
    have hj : j ≤ 3 := hj
    interval_cases j <;> rfl
  have hnew : ¬ Server.attended.g.heap.Elem Server.attended.g.pool.alloc.1 := by decide
  have hearly : Server.attended.g.heap.Restores 5 := by
    refine ⟨by decide, ?_⟩
    intro _ _
    refine ⟨⟨by decide, by decide⟩, ?_⟩
    intro _ _
    refine ⟨⟨by decide, by decide⟩, ?_⟩
    intro hpar
    exact absurd hpar (by decide)
  have hlate : Server.attended.g.heap.Restores 50 := Heap.restores_of_late (by decide) (by decide)
  obtain ⟨hclient, hupstream⟩ := refused_untouched hindexed hnew
  refine ⟨(hclient Server.attended ⟨5, false, 5⟩ rfl (.inr rfl)).mpr hearly, _, rfl, ?_⟩
  exact (hupstream ⟨6, true, true, false, 50⟩ (Server.attended.session 1) _ rfl rfl rfl rfl).mpr hlate

/-- A worker with a full table.  The object handed out next has the `heap_idx` of its last use. -/
def Server.crowded : Server :=
  { Server.boot with
    g := ⟨⟨[], MAX_CONNECTION + 1⟩,
      ⟨id, MAX_CONNECTION, fun _ => 0, fun a => if a ≤ MAX_CONNECTION then a else 3⟩, false, []⟩ }

/-- One more connection takes another one out. -/
theorem crowded_disturbed :
    ¬ ∀ (v : Server) (o : Opening), v.g.heap.Indexed → ¬ v.g.heap.Elem v.g.pool.alloc.1 →
      ((v.g.heap.setTime v.g.pool.alloc.1 o.now).register v.g.pool.alloc.1).1 = false ∨
          o.epoll = false →
        v.g.heap.Untouched (v.openConnection o).g.heap := by
  intro hall
  have hfull : ((Server.crowded.g.heap.setTime Server.crowded.g.pool.alloc.1 0).register
      Server.crowded.g.pool.alloc.1).1 = false := rfl
  have hindexed : Server.crowded.g.heap.Indexed := fun j _ hj => if_pos hj
  have hnew : ¬ Server.crowded.g.heap.Elem Server.crowded.g.pool.alloc.1 := by
    rintro ⟨j, -, hj, he⟩
    have hj : j ≤ MAX_CONNECTION := hj
    have he : j = MAX_CONNECTION + 1 := he
    omega
  have hu := hall Server.crowded ⟨5, true, 0⟩ hindexed hnew (.inl hfull)
  obtain ⟨ok, hr, hreg, hun⟩ := Server.openConnection_refused_heap (v := Server.crowded)
    (o := ⟨5, true, 0⟩) (.inl hfull)
  have hres := (Heap.refusal_untouched hindexed hnew hreg hun).mp hu
  exact absurd hres.1 (lt_irrefl MAX_CONNECTION)

end SyServer
