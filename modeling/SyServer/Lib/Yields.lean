import Mathlib.Tactic

/-! # What a computation yields

`Yields E P x`: the computation `x` fails with an error of `E`, or answers a value of `P`.  The rules
follow the monad: a value, an error, a sequence, a weaker postcondition. -/

variable {ε α β : Type} {E E' : ε → Prop} {P P' : α → Prop} {Q : β → Prop}

def Yields (E : ε → Prop) (P : α → Prop) : Except ε α → Prop
  | .ok a => P a
  | .error e => E e

namespace Yields

@[simp] theorem ok_iff {a : α} : Yields E P (.ok a) ↔ P a := Iff.rfl

@[simp] theorem error_iff {e : ε} : Yields E P (.error e : Except ε α) ↔ E e := Iff.rfl

theorem bind {x : Except ε α} {f : α → Except ε β} (hx : Yields E P x) (hf : ∀ a, P a → Yields E Q (f a)) :
    Yields E Q (x >>= f) := by
  cases x with
  | error e => exact hx
  | ok a => exact hf a hx

theorem map {x : Except ε α} {f : α → β} (hx : Yields E P x) (hf : ∀ a, P a → Q (f a)) :
    Yields E Q (x.map f) := by
  cases x with
  | error e => exact hx
  | ok a => exact hf a hx

theorem mono {x : Except ε α} (hx : Yields E P x) (hE : ∀ e, E e → E' e) (hP : ∀ a, P a → P' a) :
    Yields E' P' x := by
  cases x with
  | error e => exact hE e hx
  | ok a => exact hP a hx

theorem error {x : Except ε α} {e : ε} (hx : Yields E P x) (h : x = .error e) : E e := by
  rw [h] at hx
  exact hx

theorem ok {x : Except ε α} {a : α} (hx : Yields E P x) (h : x = .ok a) : P a := by
  rw [h] at hx
  exact hx

end Yields
