import Mathlib.Tactic

/-! # First in, first out

A store that holds a sequence: what is put in comes behind it, what is taken out comes from its front.

* `Passes`: from one content to another, with what was put in and what was taken out on the way.
* `Passes.trans`: two passes are one.
* `Passes.prefix_of_empty`: what was taken out of a store that was empty is a prefix of what was put
  in. -/

namespace Fifo

variable {α : Type} {cur mid next inp inp' out out' : List α}

/-- From the content `cur` to the content `next`, when `inp` is put in and `out` is taken out. -/
def Passes (cur inp out next : List α) : Prop := cur ++ inp = out ++ next

theorem Passes.refl (cur : List α) : Passes cur [] [] cur := List.append_nil cur

theorem Passes.put (cur inp : List α) : Passes cur inp [] (cur ++ inp) := rfl

theorem Passes.take (h : out ++ next = cur) : Passes cur [] out next := by
  unfold Passes
  rw [List.append_nil, h]

theorem Passes.trans (h : Passes cur inp out mid) (h' : Passes mid inp' out' next) :
    Passes cur (inp ++ inp') (out ++ out') next :=
  calc cur ++ (inp ++ inp') = (cur ++ inp) ++ inp' := (List.append_assoc _ _ _).symm
    _ = out ++ (mid ++ inp') := by rw [h, List.append_assoc]
    _ = (out ++ out') ++ next := by rw [h', List.append_assoc]

theorem Passes.prefix_of_empty (h : Passes [] inp out next) : out <+: inp := ⟨next, h.symm⟩

end Fifo
