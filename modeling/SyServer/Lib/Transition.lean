import Mathlib.Tactic
import Mathlib.Logic.Relation

/-! # Runs of a labelled transition system

A system is a function `step` that says which state a label leads to, if it is enabled.  `Reach`
is the set of states reached from the initial states when every step meets a condition on the
state before it and on its label.

* `Reach.invariant`: what holds at the start and is kept by every such step holds in every state
  reached; `Reach.invariant_of` uses an invariant that is known already.
* `Reach.mono`: a weaker condition reaches more.
* `Reach.exec`: a list of enabled labels that meet the condition is a run.
* `exec_lost`: the step of a run at which a property is lost.
* `observe_exec`: what a party observes of a run, if it observes its own events only.
* `ranked_exec`: how often a party can act before a step that is waited for.
* `kept_of_moves`: a property kept by single moves is kept by a sequence of moves. -/

namespace Transition

variable {σ ℓ : Type} {init : σ → Prop} {step : σ → ℓ → Option σ} {good : σ → ℓ → Prop}

/-- The states reached by steps that meet the condition `good`. -/
inductive Reach (init : σ → Prop) (step : σ → ℓ → Option σ) (good : σ → ℓ → Prop) : σ → Prop
  | start {s : σ} (h : init s) : Reach init step good s
  | step {s s' : σ} {l : ℓ} (h : Reach init step good s) (hgood : good s l)
      (hstep : step s l = some s') : Reach init step good s'

/-- The invariant rule. -/
theorem Reach.invariant (I : σ → Prop) (hinit : ∀ s, init s → I s)
    (hkeep : ∀ s l s', I s → good s l → step s l = some s' → I s') {s : σ}
    (h : Reach init step good s) : I s := by
  induction h with
  | start h => exact hinit _ h
  | step _ hgood hstep ih => exact hkeep _ _ _ ih hgood hstep

/-- The invariant rule next to an invariant that is known. -/
theorem Reach.invariant_of {J : σ → Prop} (hJ : ∀ s, Reach init step good s → J s)
    (I : σ → Prop) (hinit : ∀ s, init s → I s)
    (hkeep : ∀ s l s', J s → I s → good s l → step s l = some s' → I s') {s : σ}
    (h : Reach init step good s) : I s := by
  induction h with
  | start h => exact hinit _ h
  | step hr hgood hstep ih => exact hkeep _ _ _ (hJ _ hr) ih hgood hstep

theorem Reach.mono {good' : σ → ℓ → Prop} (hgood : ∀ s l, good s l → good' s l) {s : σ}
    (h : Reach init step good s) : Reach init step good' s := by
  induction h with
  | start h => exact .start h
  | step _ hg hstep ih => exact .step ih (hgood _ _ hg) hstep

/-- Follow a list of labels. -/
def exec (step : σ → ℓ → Option σ) : σ → List ℓ → Option σ
  | s, [] => some s
  | s, l :: ls => (step s l).bind fun s' => exec step s' ls

theorem exec_append (s : σ) (ls ls' : List ℓ) :
    exec step s (ls ++ ls') = (exec step s ls).bind fun t => exec step t ls' := by
  induction ls generalizing s with
  | nil => rfl
  | cons l ls ih =>
      show (step s l).bind _ = ((step s l).bind _).bind _
      cases step s l with
      | none => rfl
      | some t => exact ih t

/-- Every step along a list of labels meets the condition. -/
def Along (step : σ → ℓ → Option σ) (good : σ → ℓ → Prop) : σ → List ℓ → Prop
  | _, [] => True
  | s, l :: ls => good s l ∧ ∀ s' ∈ step s l, Along step good s' ls

instance decidableAlong [∀ s l, Decidable (good s l)] : ∀ (s : σ) (ls : List ℓ), Decidable (Along step good s ls)
  | _, [] => .isTrue trivial
  | s, l :: ls =>
      match h : step s l with
      | none => decidable_of_iff (good s l)
          ⟨fun hg => ⟨hg, fun s' hs => by rw [h] at hs; cases hs⟩, fun ha => ha.1⟩
      | some s' =>
          have := decidableAlong s' ls
          decidable_of_iff (good s l ∧ Along step good s' ls)
            ⟨fun ⟨hg, ha⟩ => ⟨hg, fun t ht => by rw [h] at ht; cases ht; exact ha⟩,
              fun ha => ⟨ha.1, ha.2 s' h⟩⟩

theorem Reach.exec {s s' : σ} {ls : List ℓ} (h : Reach init step good s)
    (hgood : Along step good s ls) (hexec : exec step s ls = some s') :
    Reach init step good s' := by
  induction ls generalizing s with
  | nil => cases hexec; exact h
  | cons l ls ih =>
      unfold Transition.exec at hexec
      cases hs : step s l with
      | none => rw [hs] at hexec; cases hexec
      | some t =>
          rw [hs] at hexec
          exact ih (.step h hgood.1 hs) (hgood.2 t hs) hexec

/-- Without a condition every run will do. -/
theorem along_true (s : σ) (ls : List ℓ) : Along step (fun _ _ => True) s ls := by
  induction ls generalizing s with
  | nil => trivial
  | cons l ls ih => exact ⟨trivial, fun s' _ => ih s'⟩

/-- An invariant known at the start holds along the run. -/
theorem Along.keep {J : σ → Prop} (hkeep : ∀ s l s', J s → step s l = some s' → J s') {s : σ}
    {ls : List ℓ} (hj : J s) (h : Along step good s ls) : Along step (fun s l => J s ∧ good s l) s ls := by
  induction ls generalizing s with
  | nil => trivial
  | cons l ls ih => exact ⟨⟨hj, h.1⟩, fun s' hs => ih (hkeep _ _ _ hj hs) (h.2 s' hs)⟩

theorem Along.and {good' : σ → ℓ → Prop} {s : σ} {ls : List ℓ} (h : Along step good s ls)
    (h' : Along step good' s ls) : Along step (fun s l => good s l ∧ good' s l) s ls := by
  induction ls generalizing s with
  | nil => trivial
  | cons l ls ih => exact ⟨⟨h.1, h'.1⟩, fun t ht => ih (h.2 t ht) (h'.2 t ht)⟩

/-- Where a property is lost in a run: behind a part of the run along which it held. -/
theorem exec_lost (P : σ → Prop) {s s' : σ} {ls : List ℓ} (hp : P s) (h : exec step s ls = some s')
    (hnot : ¬ P s') : ∃ ls₁ l ls₂ t t', ls = ls₁ ++ l :: ls₂ ∧ exec step s ls₁ = some t ∧
      Along step (fun s _ => P s) s ls₁ ∧ P t ∧ step t l = some t' ∧ ¬ P t' := by
  induction ls generalizing s with
  | nil =>
      cases h
      exact absurd hp hnot
  | cons l ls ih =>
      obtain ⟨t, hs, hrest⟩ := Option.bind_eq_some_iff.mp h
      by_cases ht : P t
      · obtain ⟨ls₁, m, ls₂, u, u', rfl, hexec, halong, hrest⟩ := ih ht hrest
        refine ⟨l :: ls₁, m, ls₂, u, u', rfl, ?_, ⟨hp, fun t' ht' => ?_⟩, hrest⟩
        · unfold exec
          rw [hs, Option.bind_some, hexec]
        · rw [hs] at ht'
          cases ht'
          exact halong
      · exact ⟨[], l, ls, s, t, rfl, rfl, trivial, hp, hs, ht⟩

/-- Where a run ends, when a test says something of it. -/
theorem exists_of_any {o : Option σ} {P : σ → Bool} (h : o.any P = true) :
    ∃ s, o = some s ∧ P s = true := by
  cases o with
  | none => cases h
  | some s => exact ⟨s, rfl, h⟩

/-! ### What one party of a system observes -/

section party

variable {ε ο : Type}

/-- The events of one party in a run; `own` says which event of the party a step is. -/
def party (step : σ → ℓ → Option σ) (own : σ → ℓ → Option ε) : σ → List ℓ → List ε
  | _, [] => []
  | s, l :: ls => (own s l).toList ++ (step s l).elim [] fun s' => party step own s' ls

theorem party_singleton (own : σ → ℓ → Option ε) (s : σ) (l : ℓ) :
    party step own s [l] = (own s l).toList := by
  unfold party
  cases step s l <;> exact List.append_nil _

/-- **A party that observes its own events only**: where every step does to what the party observes
what its event does, and nothing where it has none, so does a run. -/
theorem observe_exec (own : σ → ℓ → Option ε) (observe : σ → ο) (act : ο → ε → ο)
    (hstep : ∀ s l s', good s l → step s l = some s' →
      observe s' = (own s l).toList.foldl act (observe s)) {s s' : σ} {ls : List ℓ}
    (hgood : Along step good s ls) (h : exec step s ls = some s') :
    observe s' = (party step own s ls).foldl act (observe s) := by
  induction ls generalizing s with
  | nil => cases h; rfl
  | cons l ls ih =>
      unfold exec at h
      cases hs : step s l with
      | none => rw [hs] at h; cases h
      | some t =>
          rw [hs] at h
          rw [ih (hgood.2 t hs) h, hstep s l t hgood.1 hs, ← List.foldl_append, party, hs]
          rfl

/-- **A ranked party**: where every step is the one that is waited for, or keeps the invariant and pays
for the party's event with the rank, a run has that step, or no more events of the party than the rank. -/
theorem ranked_exec (own : σ → ℓ → Option ε) (I : σ → Prop) (rank : σ → ℕ) (awaited : σ → ℓ → Prop)
    (hstep : ∀ s l s', good s l → I s → step s l = some s' →
      awaited s l ∨ I s' ∧ (own s l).toList.length + rank s' ≤ rank s) {s s' : σ} {ls : List ℓ}
    (hgood : Along step good s ls) (hi : I s) (h : exec step s ls = some s') :
    (∃ ls₁ l ls₂ t, ls = ls₁ ++ l :: ls₂ ∧ exec step s ls₁ = some t ∧ awaited t l) ∨
      I s' ∧ (party step own s ls).length + rank s' ≤ rank s := by
  induction ls generalizing s with
  | nil =>
      cases h
      exact .inr ⟨hi, by simp [party]⟩
  | cons l ls ih =>
      obtain ⟨t, hs, hrest⟩ := Option.bind_eq_some_iff.mp h
      rcases hstep s l t hgood.1 hi hs with hdone | ⟨hit, hrank⟩
      · exact .inl ⟨[], l, ls, s, rfl, rfl, hdone⟩
      rcases ih (hgood.2 t hs) hit hrest with ⟨ls₁, m, ls₂, u, rfl, hexec, hdone⟩ | ⟨hi', hle⟩
      · refine .inl ⟨l :: ls₁, m, ls₂, u, rfl, ?_, hdone⟩
        unfold exec
        rw [hs, Option.bind_some, hexec]
      · refine .inr ⟨hi', ?_⟩
        rw [party, hs, List.length_append]
        dsimp only [Option.elim_some]
        omega

end party

/-- A property kept by every move is kept by a sequence of moves. -/
theorem kept_of_moves {move : σ → σ → Prop} (I : σ → Prop)
    (hkeep : ∀ s s', I s → move s s' → I s') {s s' : σ} (hi : I s)
    (h : Relation.ReflTransGen move s s') : I s' := by
  induction h with
  | refl => exact hi
  | tail _ hm ih => exact hkeep _ _ ih hm

end Transition
