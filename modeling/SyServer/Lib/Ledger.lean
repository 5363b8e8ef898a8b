import Mathlib.Tactic

/-! # Who holds what was opened

A ledger is the list of the openings and closings of some handles, newest entry first.  Handles are
answered by somebody else: that an answer is none of the handles already open is `Fresh`.

Every holder has room for one handle.  `Booked l o` says that along the ledger `l` every handle went
to a holder when it was opened, and from its holder when it was closed, and that `o` is what the
holders have in the end.

* `Booked.exact`: in a fresh ledger the handles that are open are those of the holders, each held
  once.
* `Booked.closedOnce`: and every handle that is closed was open. -/

namespace Ledger

variable {α ι : Type}

/-- An entry of a ledger. -/
inductive Entry (α : Type) where
  | opened (x : α)
  | closed (x : α)
deriving DecidableEq, Repr

/-! ### Holders -/

variable [DecidableEq ι]

/-- Every handle goes to a holder that has none, and is closed by its holder. -/
inductive Booked : List (Entry α) → (ι → Option α) → Prop
  | nil : Booked [] fun _ => none
  | opened {l : List (Entry α)} {o : ι → Option α} (i : ι) (x : α) (h : Booked l o) (hi : o i = none) :
      Booked (.opened x :: l) (Function.update o i (some x))
  | closed {l : List (Entry α)} {o : ι → Option α} (i : ι) (x : α) (h : Booked l o) (hi : o i = some x) :
      Booked (.closed x :: l) (Function.update o i none)

variable {l : List (Entry α)} {o o' : ι → Option α} {i : ι} {x : α}

/-- A handle that is opened and closed at once. -/
theorem Booked.both (h : Booked l o) (hi : o i = none) : Booked (.closed x :: .opened x :: l) o := by
  have h2 := (h.opened i x hi).closed i x (Function.update_self ..)
  rwa [Function.update_idem, Function.update_eq_self_iff.mpr hi.symm] at h2

theorem Booked.open_to (h : Booked l o) (hi : o i = none) (ho : o' i = some x)
    (hother : ∀ j, j ≠ i → o' j = o j) : Booked (.opened x :: l) o' := by
  have h2 := h.opened i x hi
  rwa [show Function.update o i (some x) = o' from Function.update_eq_iff.mpr
    ⟨ho.symm, fun j hj => (hother j hj).symm⟩] at h2

theorem Booked.close_from (h : Booked l o) (hi : o i = some x) (ho : o' i = none)
    (hother : ∀ j, j ≠ i → o' j = o j) : Booked (.closed x :: l) o' := by
  have h2 := h.closed i x hi
  rwa [show Function.update o i none = o' from Function.update_eq_iff.mpr
    ⟨ho.symm, fun j hj => (hother j hj).symm⟩] at h2

/-- Another handle is open meanwhile. -/
theorem Booked.open_via {j : ι} {y : α} (h : Booked l o) (hi : o i = none) (hj : o j = none) (hij : i ≠ j)
    (ho : o' i = some x) (hother : ∀ k, k ≠ i → o' k = o k) :
    Booked (.closed y :: .opened x :: .opened y :: l) o' := by
  have h1 := h.opened j y hj
  have h2 : Booked (.opened x :: .opened y :: l) (Function.update o' j (some y)) := by
    apply h1.open_to (i := i)
    · rw [Function.update_of_ne hij, hi]
    · rw [Function.update_of_ne hij, ho]
    · intro k hk
      by_cases hkj : k = j
      · rw [hkj, Function.update_self, Function.update_self]
      · rw [Function.update_of_ne hkj, Function.update_of_ne hkj, hother k hk]
  apply h2.close_from (i := j) (Function.update_self ..)
  · rw [hother j hij.symm, hj]
  · intro k hk
    rw [Function.update_of_ne hk]

/-! ### What is open -/

variable [DecidableEq α]

/-- The handles that are open. -/
def held : List (Entry α) → List α
  | [] => []
  | .opened x :: l => x :: held l
  | .closed x :: l => (held l).erase x

/-- No handle is opened while it is open. -/
def Fresh : List (Entry α) → Prop
  | [] => True
  | .opened x :: l => x ∉ held l ∧ Fresh l
  | .closed _ :: l => Fresh l

/-- No handle is closed unless it is open. -/
def ClosedOnce : List (Entry α) → Prop
  | [] => True
  | .opened _ :: l => ClosedOnce l
  | .closed x :: l => x ∈ held l ∧ ClosedOnce l

instance decidableFresh : ∀ l : List (Entry α), Decidable (Fresh l)
  | [] => .isTrue trivial
  | .opened x :: l =>
      have := decidableFresh l
      inferInstanceAs (Decidable (x ∉ held l ∧ Fresh l))
  | .closed _ :: l => decidableFresh l

/-- What is open, and who holds it. -/
structure Exact (l : List (Entry α)) (o : ι → Option α) : Prop where
  nodup : (held l).Nodup
  mem : ∀ x, x ∈ held l ↔ ∃ i, o i = some x
  once : ∀ i j x, o i = some x → o j = some x → i = j

/-- **The handles that are open are those of the holders**, each held once. -/
theorem Booked.exact (h : Booked l o) (hl : Fresh l) : Exact l o := by
  induction h with
  | nil => exact ⟨List.nodup_nil, fun x => by simp [held], fun i j x hi => by cases hi⟩
  | @opened l o i x h hi ih =>
      obtain ⟨hnew, hl⟩ := hl
      obtain ⟨hn, hm, hinj⟩ := ih hl
      -- nobody holds the new handle yet
      have hnone : ∀ j, o j ≠ some x := fun j hj => hnew ((hm x).mpr ⟨j, hj⟩)
      refine ⟨List.nodup_cons.mpr ⟨hnew, hn⟩, fun y => ?_, fun j k y hj hk => ?_⟩
      · show y ∈ x :: held l ↔ _
        rw [List.mem_cons, hm]
        constructor
        · rintro (rfl | ⟨j, hj⟩)
          · exact ⟨i, Function.update_self ..⟩
          · have hji : j ≠ i := by
              rintro rfl
              rw [hi] at hj
              cases hj
            exact ⟨j, by rw [Function.update_of_ne hji, hj]⟩
        · rintro ⟨j, hj⟩
          by_cases hji : j = i
          · subst hji
            rw [Function.update_self] at hj
            exact .inl (Option.some.inj hj).symm
          · rw [Function.update_of_ne hji] at hj
            exact .inr ⟨j, hj⟩
      · by_cases hji : j = i <;> by_cases hki : k = i
        · exact hji.trans hki.symm
        · subst hji
          rw [Function.update_self] at hj
          rw [Function.update_of_ne hki, ← hj] at hk
          exact absurd hk (hnone k)
        · subst hki
          rw [Function.update_self] at hk
          rw [Function.update_of_ne hji, ← hk] at hj
          exact absurd hj (hnone j)
        · rw [Function.update_of_ne hji] at hj
          rw [Function.update_of_ne hki] at hk
          exact hinj j k y hj hk
  | @closed l o i x h hi ih =>
      obtain ⟨hn, hm, hinj⟩ := ih hl
      have hold : ∀ {j y}, Function.update o i none j = some y ↔ o j = some y ∧ j ≠ i := by
        intro j y
        by_cases hji : j = i
        · subst hji
          simp
        · simp [hji]
      refine ⟨hn.erase x, fun y => ?_, fun j k y hj hk => hinj j k y (hold.mp hj).1 (hold.mp hk).1⟩
      show y ∈ (held l).erase x ↔ _
      rw [hn.mem_erase_iff, hm]
      constructor
      · rintro ⟨hy, j, hj⟩
        refine ⟨j, hold.mpr ⟨hj, ?_⟩⟩
        rintro rfl
        exact hy (Option.some.inj (hj.symm.trans hi))
      · rintro ⟨j, hj⟩
        obtain ⟨hj, hji⟩ := hold.mp hj
        refine ⟨?_, j, hj⟩
        rintro rfl
        exact hji (hinj j i y hj hi)

/-- **Nothing is closed twice.** -/
theorem Booked.closedOnce (h : Booked l o) (hl : Fresh l) : ClosedOnce l := by
  induction h with
  | nil => trivial
  | opened i x h hi ih => exact ih hl.2
  | closed i x h hi ih => exact ⟨((h.exact hl).mem x).mpr ⟨i, hi⟩, ih hl⟩

end Ledger
