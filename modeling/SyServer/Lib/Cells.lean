import Mathlib.Tactic

/-! # Linked cells

A `next` field leads from cell to cell.

* `Chain`: from `p` the links visit the cells of a list and come to `q`; kept by writes to other
  cells (`Chain.update`).
* `Linked`: the cells behind `a` are linked in both directions, up to the cell `b`.  `Linked.forward` and
  `Linked.backward` are its two chains, `linked_append` cuts it at a cell, and `Linked.splice` is the edit
  that puts cells in the place of others. -/

namespace Cells

variable {α : Type} {next next' prev prev' : α → α} {a b c p q r : α} {l l' : List α}

/-- Following `next` from `p` visits the cells `l` and comes to `q`. -/
def Chain (next : α → α) : α → List α → α → Prop
  | p, [], q => p = q
  | p, x :: l, q => p = x ∧ Chain next (next x) l q

@[simp] theorem chain_nil : Chain next p [] q ↔ p = q := Iff.rfl

@[simp] theorem chain_cons : Chain next p (a :: l) q ↔ p = a ∧ Chain next (next a) l q := Iff.rfl

theorem chain_append : Chain next p (l ++ l') q ↔ ∃ r, Chain next p l r ∧ Chain next r l' q := by
  induction l generalizing p with
  | nil => simp
  | cons a l ih => simp [ih, and_assoc]

/-- The links of other cells do not matter. -/
theorem Chain.congr (h : Chain next p l q) (hl : ∀ x ∈ l, next' x = next x) : Chain next' p l q := by
  induction l generalizing p with
  | nil => exact h
  | cons a l ih =>
      obtain ⟨ha, hrest⟩ := List.forall_mem_cons.mp hl
      refine ⟨h.1, ?_⟩
      rw [ha]
      exact ih h.2 hrest

theorem Chain.update [DecidableEq α] (h : Chain next p l q) (ha : a ∉ l) (x : α) :
    Chain (Function.update next a x) p l q :=
  h.congr fun _ hy => Function.update_of_ne (ne_of_mem_of_not_mem hy ha) _ _

/-- The cells up to `q` are determined. -/
theorem Chain.unique (h : Chain next p l q) (h' : Chain next p l' q) (hq : q ∉ l) (hq' : q ∉ l') :
    l = l' := by
  induction l generalizing p l' with
  | nil =>
      cases l' with
      | nil => rfl
      | cons a l' => exact absurd (h'.1.symm.trans h) fun e => hq' (e ▸ List.mem_cons_self)
  | cons a l ih =>
      cases l' with
      | nil => exact absurd (h.1.symm.trans h') fun e => hq (e ▸ List.mem_cons_self)
      | cons a' l' =>
          obtain ⟨rfl, hl⟩ := h
          obtain ⟨rfl, hl'⟩ := h'
          rw [List.mem_cons, not_or] at hq hq'
          rw [ih hl hl' hq.2 hq'.2]

/-! ### Links in both directions -/

/-- The cells `l` come behind `a`, each linked with the one before it; the last one, or `a` if there is
none, is `b`. -/
def Linked (next prev : α → α) : α → List α → α → Prop
  | a, [], b => a = b
  | a, c :: l, b => next a = c ∧ prev c = a ∧ Linked next prev c l b

@[simp] theorem linked_nil : Linked next prev a [] b ↔ a = b := Iff.rfl

@[simp] theorem linked_cons : Linked next prev a (c :: l) b ↔
    next a = c ∧ prev c = a ∧ Linked next prev c l b := Iff.rfl

theorem linked_append : Linked next prev a (l ++ l') b ↔
    ∃ c, Linked next prev a l c ∧ Linked next prev c l' b := by
  induction l generalizing a with
  | nil => simp
  | cons x l ih => simp [ih, and_assoc]

/-- The last cell. -/
theorem Linked.mem (h : Linked next prev a l b) : b = a ∨ b ∈ l := by
  induction l generalizing a with
  | nil => exact .inl h.symm
  | cons c l ih =>
      obtain ⟨-, -, h⟩ := h
      rcases ih h with rfl | hb
      · exact .inr List.mem_cons_self
      · exact .inr (List.mem_cons_of_mem _ hb)

theorem Linked.getLast (h : Linked next prev a l b) : (a :: l).getLast? = some b := by
  induction l generalizing a with
  | nil => rw [show a = b from h]; rfl
  | cons c l ih => rw [List.getLast?_cons_cons, ih h.2.2]

/-- The last cell is none of those before it. -/
theorem Linked.last_notMem (h : Linked next prev a l b) (hnodup : (a :: l).Nodup) :
    b ∉ (a :: l).dropLast := by
  have hsplit := List.dropLast_append_getLast? b h.getLast
  rw [← hsplit, List.nodup_append] at hnodup
  exact fun hb => hnodup.2.2 b hb b (List.mem_singleton_self b) rfl

/-- The way forward. -/
theorem Linked.forward (h : Linked next prev a l b) : Chain next (next a) l (next b) := by
  induction l generalizing a with
  | nil => rw [show a = b from h]; rfl
  | cons c l ih => exact ⟨h.1, ih h.2.2⟩

/-- The way back. -/
theorem Linked.backward (h : Linked next prev a l b) : Chain prev b l.reverse a := by
  induction l generalizing a with
  | nil => exact h.symm
  | cons c l ih =>
      rw [List.reverse_cons, chain_append]
      exact ⟨c, ih h.2.2, rfl, h.2.1⟩

/-- The forward links of `a` and of the cells but the last, and the backward links of the cells. -/
theorem Linked.congr (h : Linked next prev a l b) (hnext : ∀ x ∈ (a :: l).dropLast, next' x = next x)
    (hprev : ∀ x ∈ l, prev' x = prev x) : Linked next' prev' a l b := by
  induction l generalizing a with
  | nil => exact h
  | cons c l ih =>
      obtain ⟨h1, h2, h3⟩ := h
      obtain ⟨hc, hl⟩ := List.forall_mem_cons.mp hprev
      rw [List.dropLast_cons_cons, List.forall_mem_cons] at hnext
      exact ⟨hnext.1.trans h1, hc.trans h2, ih h3 hnext.2 hl⟩

/-- The cells `m` take the place of what was between `c` and the cells `l'`, which came behind `n`. -/
theorem Linked.splice {m : List α} {n e : α} (h : Linked next prev a l c) (hmid : Linked next' prev' c m e)
    (h' : Linked next prev n l' b) (hnodup : (a :: (l ++ l')).Nodup) (hjoin : next' e = next n)
    (hhead : ∀ x ∈ l'.head?, prev' x = e) (hnext : ∀ x ∈ a :: (l ++ l'), x ≠ c → next' x = next x)
    (hprev : ∀ x ∈ l ++ l', x ∉ l'.head? → prev' x = prev x) :
    Linked next' prev' a (l ++ (m ++ l')) (if l' = [] then e else b) := by
  have hleft := List.nodup_append.mp (show ((a :: l) ++ l').Nodup from hnodup)
  have hfirst : Linked next' prev' a l c := by
    refine h.congr (fun x hx => hnext x ?_ ?_) fun x hx => hprev x (List.mem_append_left _ hx) fun hx' => ?_
    · exact List.mem_append_left l' (List.mem_of_mem_dropLast hx)
    · exact ne_of_mem_of_not_mem hx (h.last_notMem hleft.1)
    · exact hleft.2.2 x (List.mem_cons_of_mem _ hx) x (List.mem_of_mem_head? hx') rfl
  refine linked_append.mpr ⟨c, hfirst, linked_append.mpr ⟨e, hmid, ?_⟩⟩
  cases l' with
  | nil => rfl
  | cons f l' =>
      obtain ⟨hf, -, hrest⟩ := h'
      rw [if_neg (List.cons_ne_nil _ _)]
      refine ⟨hjoin.trans hf, hhead f rfl, hrest.congr (fun x hx => ?_) fun x hx => ?_⟩
      · have hx := List.mem_of_mem_dropLast hx
        refine hnext x (List.mem_cons_of_mem _ (List.mem_append_right _ hx)) ?_
        rintro rfl
        rcases h.mem with rfl | hmem
        · exact hleft.2.2 x List.mem_cons_self x hx rfl
        · exact hleft.2.2 x (List.mem_cons_of_mem _ hmem) x hx rfl
      · refine hprev x (List.mem_append_right _ (List.mem_cons_of_mem _ hx)) fun hx' => ?_
        cases hx'
        exact (List.nodup_cons.mp hleft.2.1).1 hx

end Cells
