import Mathlib.Tactic

/-! # Sequences of calls

Calls `step` are made one after another, until one fails.

* `states`, `calls`: the states of a run, the first one included, and its calls, each with the state
  before it.
* `states_invariant`: what every call keeps holds in every state.
* `states_growing`: the same where what is kept is about a witness that grows.
* `states_iff`: a property holds in every state and no call fails in the bad way exactly when every call
  meets a condition, if that is so of one call. -/

namespace Calls

variable {σ ℓ ε : Type} {step : ℓ → σ → Except ε σ}

def states (step : ℓ → σ → Except ε σ) : σ → List ℓ → List σ
  | s, [] => [s]
  | s, l :: ls => s :: match step l s with
      | .ok s' => states step s' ls
      | .error _ => []

def calls (step : ℓ → σ → Except ε σ) : σ → List ℓ → List (σ × ℓ)
  | _, [] => []
  | s, l :: ls => (s, l) :: match step l s with
      | .ok s' => calls step s' ls
      | .error _ => []

variable {s t : σ} {l : ℓ} {ls : List ℓ} {e : ε}

theorem states_ok (h : step l s = .ok t) : states step s (l :: ls) = s :: states step t ls := by
  rw [states, h]

theorem states_error (h : step l s = .error e) : states step s (l :: ls) = [s] := by
  rw [states, h]

theorem calls_ok (h : step l s = .ok t) : calls step s (l :: ls) = (s, l) :: calls step t ls := by
  rw [calls, h]

theorem calls_error (h : step l s = .error e) : calls step s (l :: ls) = [(s, l)] := by
  rw [calls, h]

theorem mem_states (s : σ) (ls : List ℓ) : s ∈ states step s ls := by
  cases ls <;> exact List.mem_cons_self

theorem mem_calls (s : σ) (l : ℓ) (ls : List ℓ) : (s, l) ∈ calls step s (l :: ls) :=
  List.mem_cons_self

theorem mem_states_of_mem_calls {x : σ × ℓ} (h : x ∈ calls step s ls) : x.1 ∈ states step s ls := by
  induction ls generalizing s with
  | nil => cases h
  | cons l ls ih =>
      cases hl : step l s with
      | error e =>
          rw [calls_error hl] at h
          rw [List.mem_singleton.mp h]
          exact mem_states s _
      | ok t =>
          rw [calls_ok hl] at h
          rw [states_ok hl]
          rcases List.mem_cons.mp h with rfl | h
          · exact List.mem_cons_self
          · exact List.mem_cons_of_mem _ (ih h)

/-- The invariant rule, where something else is known of the states. -/
theorem states_invariant_of (I J : σ → Prop) (hkeep : ∀ l s s', J s → I s → step l s = .ok s' → I s')
    (hi : I s) (hJ : ∀ s' ∈ states step s ls, J s') : ∀ s' ∈ states step s ls, I s' := by
  induction ls generalizing s with
  | nil =>
      intro s' hs'
      rw [List.mem_singleton.mp hs']
      exact hi
  | cons l ls ih =>
      cases hl : step l s with
      | error e =>
          rw [states_error hl, List.forall_mem_singleton]
          exact hi
      | ok t =>
          rw [states_ok hl, List.forall_mem_cons] at hJ ⊢
          exact ⟨hi, ih (hkeep l s t hJ.1 hi hl) hJ.2⟩

/-- The invariant rule. -/
theorem states_invariant (I : σ → Prop) (hkeep : ∀ l s s', I s → step l s = .ok s' → I s')
    (hi : I s) (ls : List ℓ) : ∀ s' ∈ states step s ls, I s' :=
  states_invariant_of I (fun _ => True) (fun l s s' _ => hkeep l s s') hi fun _ _ => trivial

/-- The rule for an invariant with a witness that grows from call to call. -/
theorem states_growing {ι : Type} (grows : ι → ι → Prop) (I : ι → σ → Prop) (hrefl : ∀ i, grows i i)
    (htrans : ∀ i j k, grows i j → grows j k → grows i k)
    (hkeep : ∀ l s s' i, I i s → step l s = .ok s' → ∃ j, grows i j ∧ I j s') {i : ι} (hi : I i s)
    (ls : List ℓ) : ∃ j, grows i j ∧ ∀ s' ∈ states step s ls, ∃ k, grows k j ∧ I k s' := by
  induction ls generalizing s i with
  | nil =>
      refine ⟨i, hrefl i, fun s' hs' => ?_⟩
      rw [List.mem_singleton.mp hs']
      exact ⟨i, hrefl i, hi⟩
  | cons l ls ih =>
      cases hl : step l s with
      | error e =>
          rw [states_error hl]
          refine ⟨i, hrefl i, List.forall_mem_singleton.mpr ⟨i, hrefl i, hi⟩⟩
      | ok t =>
          obtain ⟨j, hij, hj⟩ := hkeep l s t i hi hl
          obtain ⟨k, hjk, hall⟩ := ih hj
          rw [states_ok hl]
          have hik := htrans i j k hij hjk
          exact ⟨k, hik, List.forall_mem_cons.mpr ⟨⟨i, hik, hi⟩, hall⟩⟩

/-- The rule for a condition on the calls. -/
theorem states_iff (bad : ε) (I P : σ → Prop) (possible good : σ → ℓ → Prop)
    (hkeep : ∀ l s s', I s → P s → step l s = .ok s' → I s')
    (hgood : ∀ l s, I s → P s → possible s l →
      ((step l s ≠ .error bad ∧ ∀ s', step l s = .ok s' → P s') ↔ good s l))
    (hi : I s) (hp : P s) (hpossible : ∀ x ∈ calls step s ls, possible x.1 x.2) :
    ((∀ s' ∈ states step s ls, P s') ∧ ∀ x ∈ calls step s ls, step x.2 x.1 ≠ .error bad) ↔
      ∀ x ∈ calls step s ls, good x.1 x.2 := by
  induction ls generalizing s with
  | nil =>
      refine iff_of_true ⟨fun s' hs' => ?_, fun x hx => by cases hx⟩ fun x hx => by cases hx
      rw [List.mem_singleton.mp hs']
      exact hp
  | cons l ls ih =>
      have hone := hgood l s hi hp (hpossible (s, l) (mem_calls s l ls))
      cases hl : step l s with
      | error e =>
          rw [states_error hl, calls_error hl, List.forall_mem_singleton, List.forall_mem_singleton,
            List.forall_mem_singleton, ← hone]
          constructor
          · rintro ⟨-, hbad⟩
            exact ⟨hbad, fun s' h => by rw [hl] at h; cases h⟩
          · rintro ⟨hbad, -⟩
            exact ⟨hp, hbad⟩
      | ok t =>
          rw [calls_ok hl, List.forall_mem_cons] at hpossible
          have hrest := fun ht => ih (s := t) (hkeep l s t hi hp hl) ht hpossible.2
          rw [states_ok hl, calls_ok hl, List.forall_mem_cons, List.forall_mem_cons,
            List.forall_mem_cons, ← hone]
          constructor
          · rintro ⟨⟨-, hstates⟩, hbad, hcalls⟩
            have ht : P t := hstates t (mem_states t ls)
            refine ⟨⟨hbad, fun s' h => ?_⟩, (hrest ht).mp ⟨hstates, hcalls⟩⟩
            rw [hl] at h
            cases h
            exact ht
          · rintro ⟨⟨hbad, hnext⟩, hcalls⟩
            obtain ⟨hstates, hok⟩ := (hrest (hnext t hl)).mpr hcalls
            exact ⟨⟨hp, hstates⟩, hbad, hok⟩

end Calls
