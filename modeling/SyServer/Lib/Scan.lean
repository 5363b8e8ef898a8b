import Mathlib.Tactic

/-! # Position-driven automata with early exit

A *scan* runs a step function over consecutive positions `i, i + 1, …`: at each position the
step either goes on with a new state (`more`) or leaves the loop with a result (`stop`).  This
is the shape of a `for (p = begin; p < end; ++p)` loop over a buffer whose body may `return`.

* `scan_add`: a scan over `m + n` positions is a scan over `m` followed by one over `n`.
* `scan_inv`, `scan_stop_inv`: an invariant kept by every `more` step holds where the scan ends,
  and one step before it stops.
* `scan_map`: a transformation of the state that commutes with the step commutes with the scan.
* `StopsAfter`: the scan stops at a given step; `stopsAfter_succ` unrolls it one position at a
  time. -/

namespace Scan

/-- What one position of a scan does: go on, or leave the loop with a result. -/
inductive Step (σ ρ : Type) where
  | more (s : σ)
  | stop (r : ρ)
deriving DecidableEq, Repr

namespace Step

variable {σ σ' ρ ρ' : Type}

/-- Continue after a `more`; a `stop` stays. -/
def bind : Step σ ρ → (σ → Step σ' ρ) → Step σ' ρ
  | more s, f => f s
  | stop r, _ => stop r

/-- Transform the state of a `more` and the result of a `stop`. -/
def map (f : σ → σ') (g : ρ → ρ') : Step σ ρ → Step σ' ρ'
  | more s => more (f s)
  | stop r => stop (g r)

@[simp] theorem bind_more (s : σ) (f : σ → Step σ' ρ) : (more s).bind f = f s := rfl
@[simp] theorem bind_stop (r : ρ) (f : σ → Step σ' ρ) : (stop r).bind f = stop r := rfl
@[simp] theorem map_more (f : σ → σ') (g : ρ → ρ') (s : σ) : (more s).map f g = more (f s) := rfl
@[simp] theorem map_stop (f : σ → σ') (g : ρ → ρ') (r : ρ) : (stop r).map f g = stop (g r) := rfl

end Step

open Step

variable {σ ρ : Type} (step : ℕ → σ → Step σ ρ)

/-- Run the step over the `n` positions from `i` on. -/
def scan : ℕ → ℕ → σ → Step σ ρ
  | 0, _, s => more s
  | n + 1, i, s => (step i s).bind (scan n (i + 1))

@[simp] theorem scan_zero (i : ℕ) (s : σ) : scan step 0 i s = more s := rfl

theorem scan_succ (n i : ℕ) (s : σ) :
    scan step (n + 1) i s = (step i s).bind (scan step n (i + 1)) := rfl

/-- A scan splits at every position. -/
theorem scan_add (m n i : ℕ) (s : σ) :
    scan step (m + n) i s = (scan step m i s).bind (scan step n (i + m)) := by
  induction m generalizing i s with
  | zero => simp
  | succ m ih =>
      rw [Nat.succ_add, scan_succ, scan_succ]
      cases step i s with
      | more s' => simp only [bind_more, ih]; congr 2; omega
      | stop r => rfl

theorem scan_one (i : ℕ) (s : σ) : scan step 1 i s = step i s := by
  rw [scan_succ]
  cases step i s <;> rfl

/-- The last step of a scan. -/
theorem scan_snoc (n i : ℕ) (s : σ) :
    scan step (n + 1) i s = (scan step n i s).bind (step (i + n)) := by
  rw [scan_add]
  cases scan step n i s with
  | more s' => exact scan_one step (i + n) s'
  | stop r => rfl

variable {step}

/-- An invariant indexed by the position, kept at every position below `N`, holds where a scan
that stays below `N` runs out of positions. -/
theorem scan_inv (I : ℕ → σ → Prop) (N : ℕ)
    (hstep : ∀ i s s', i < N → I i s → step i s = more s' → I (i + 1) s')
    {n i : ℕ} {s s' : σ} (hN : i + n ≤ N) (hi : I i s) (h : scan step n i s = more s') :
    I (i + n) s' := by
  induction n generalizing i s with
  | zero => cases h; exact hi
  | succ n ih =>
      rw [scan_succ] at h
      cases hs : step i s with
      | stop r => rw [hs] at h; cases h
      | more t =>
          rw [hs] at h
          have := ih (by omega) (hstep i s t (by omega) hi hs) h
          rwa [show i + 1 + n = i + (n + 1) by omega] at this

/-- Where a scan stops, the state before the last step satisfies the invariant. -/
theorem scan_stop_inv (I : ℕ → σ → Prop) (N : ℕ)
    (hstep : ∀ i s s', i < N → I i s → step i s = more s' → I (i + 1) s')
    {n i : ℕ} {s : σ} {r : ρ} (hN : i + n ≤ N) (hi : I i s) (h : scan step n i s = stop r) :
    ∃ k, k < n ∧ ∃ t, scan step k i s = more t ∧ I (i + k) t ∧ step (i + k) t = stop r := by
  induction n generalizing i s with
  | zero => cases h
  | succ n ih =>
      rw [scan_succ] at h
      cases hs : step i s with
      | stop r' =>
          rw [hs] at h
          cases h
          exact ⟨0, by omega, s, rfl, hi, hs⟩
      | more t =>
          rw [hs] at h
          obtain ⟨k, hk, u, hu, hI, hstop⟩ := ih (by omega) (hstep i s t (by omega) hi hs) h
          have e : i + 1 + k = i + (k + 1) := by omega
          rw [e] at hI hstop
          exact ⟨k + 1, by omega, u, by rw [scan_succ, hs]; exact hu, hI, hstop⟩

/-- A change of the state that commutes with every step below `N`, on states with a property
that the steps keep, commutes with a scan that stays below `N`. -/
theorem scan_map {σ' ρ' : Type} {step' : ℕ → σ' → Step σ' ρ'} (f : σ → σ') (g : ρ → ρ')
    (P : σ → Prop) (N : ℕ) (hP : ∀ i s s', P s → step i s = more s' → P s')
    (hcomm : ∀ i s, i < N → P s → step' i (f s) = (step i s).map f g)
    {n i : ℕ} {s : σ} (hs : P s) (hN : i + n ≤ N) :
    scan step' n i (f s) = (scan step n i s).map f g := by
  induction n generalizing i s with
  | zero => rfl
  | succ n ih =>
      rw [scan_succ, scan_succ, hcomm i s (by omega) hs]
      cases ht : step i s with
      | more t => exact ih (hP i s t hs ht) (by omega)
      | stop r => rfl

/-- A scan either runs out of positions or stops at one of them. -/
theorem scan_cases (step : ℕ → σ → Step σ ρ) (n i : ℕ) (s : σ) :
    (∃ t, scan step n i s = more t) ∨
      ∃ k r t, k < n ∧ scan step k i s = more t ∧ step (i + k) t = stop r ∧
        scan step n i s = stop r := by
  cases h : scan step n i s with
  | more t => exact .inl ⟨t, rfl⟩
  | stop r =>
      obtain ⟨k, hk, t, ht, -, hstop⟩ :=
        scan_stop_inv (fun _ _ => True) (i + n) (fun _ _ _ _ _ _ => trivial) le_rfl trivial h
      exact .inr ⟨k, r, t, hk, ht, hstop, rfl⟩

/-- While a scan goes on, a scan that follows it through `f` goes on. -/
theorem scan_more_sim {σ' ρ' : Type} {step' : ℕ → σ' → Step σ' ρ'} (f : σ → σ')
    (hsim : ∀ i s t, step i s = more t → step' i (f s) = more (f t)) {n i : ℕ} {s t : σ}
    (h : scan step n i s = more t) : scan step' n i (f s) = more (f t) := by
  induction n generalizing i s with
  | zero => cases h; rfl
  | succ n ih =>
      rw [scan_succ] at h ⊢
      cases hs : step i s with
      | stop r => rw [hs] at h; cases h
      | more u =>
          rw [hs] at h
          rw [hsim i s u hs]
          exact ih h

/-- The scan over `n` positions from `i` on stops with `r` at its step number `len`. -/
def StopsAfter (step : ℕ → σ → Step σ ρ) (n i : ℕ) (s : σ) : ℕ → ρ → Prop
  | 0, _ => False
  | k + 1, r => k < n ∧ ∃ t, scan step k i s = more t ∧ step (i + k) t = stop r

theorem stopsAfter_succ (n i : ℕ) (s : σ) (len : ℕ) (r : ρ) :
    StopsAfter step (n + 1) i s (len + 1) r ↔
      match step i s with
      | more t => StopsAfter step n (i + 1) t len r
      | stop r' => len = 0 ∧ r' = r := by
  cases len with
  | zero =>
      cases hs : step i s with
      | more t => simp [StopsAfter, hs]
      | stop r' => simp [StopsAfter, hs]
  | succ k =>
      cases hs : step i s with
      | more t => simp [StopsAfter, scan_succ, hs, Nat.add_assoc, Nat.add_comm 1 k]
      | stop r' => simp [StopsAfter, scan_succ, hs]

/-- A scan that stops does so at one of its steps. -/
theorem exists_stopsAfter {n i : ℕ} {s : σ} {r : ρ} (h : scan step n i s = stop r) :
    ∃ len, StopsAfter step n i s len r := by
  obtain ⟨k, hk, t, ht, -, hstop⟩ :=
    scan_stop_inv (fun _ _ => True) (i + n) (fun _ _ _ _ _ _ => trivial) le_rfl trivial h
  exact ⟨k + 1, hk, t, ht, hstop⟩

theorem StopsAfter.scan {n i : ℕ} {s : σ} {len : ℕ} {r : ρ} (h : StopsAfter step n i s len r) :
    scan step n i s = stop r := by
  cases len with
  | zero => exact h.elim
  | succ k =>
      obtain ⟨hk, t, ht, hstop⟩ := h
      obtain ⟨m, rfl⟩ : ∃ m, n = k + 1 + m := ⟨n - (k + 1), by omega⟩
      rw [scan_add, scan_snoc, ht, bind_more, hstop, bind_stop]

end Scan
