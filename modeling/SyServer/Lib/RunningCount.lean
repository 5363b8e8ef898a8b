import Mathlib.Tactic

/-! # Running counts

A list of items, each with an integer weight; the *running count* is the sum over a prefix.
`NeverNegative w l` says that no prefix of `l` has a negative count.

Two counters decide this in one pass: `up` collects the positive weights, but only while it is
not behind, and `down` counts the items of weight `-1`.  Once `up` falls behind it is frozen, so
`up < down` at the end says that some prefix was negative (`Tracks.lt_iff`).

The items are often the pieces of a list cut at a separator; `splitOn_concat_sep` and
`splitOn_concat_ne` say what one more element does to the pieces. -/

namespace RunningCount

variable {α : Type} {w : α → ℤ}

/-- No prefix has a negative sum. -/
def NeverNegative (w : α → ℤ) (l : List α) : Prop := ∀ p ∈ l.inits, 0 ≤ (p.map w).sum

instance (w : α → ℤ) (l : List α) : Decidable (NeverNegative w l) :=
  inferInstanceAs (Decidable (∀ p ∈ l.inits, 0 ≤ (p.map w).sum))

theorem neverNegative_iff {l : List α} :
    NeverNegative w l ↔ ∀ p, p <+: l → 0 ≤ (p.map w).sum := by
  simp only [NeverNegative, List.mem_inits]

@[simp] theorem neverNegative_nil : NeverNegative w [] := by
  simp [neverNegative_iff]

theorem NeverNegative.sum_nonneg {l : List α} (h : NeverNegative w l) : 0 ≤ (l.map w).sum :=
  neverNegative_iff.mp h l (List.prefix_refl l)

theorem neverNegative_concat {l : List α} {a : α} :
    NeverNegative w (l ++ [a]) ↔ NeverNegative w l ∧ 0 ≤ (l.map w).sum + w a := by
  simp only [neverNegative_iff, List.prefix_concat_iff]
  constructor
  · intro h
    refine ⟨fun p hp => h p (.inr hp), ?_⟩
    have := h (l ++ [a]) (.inl rfl)
    simpa using this
  · rintro ⟨h, ha⟩ p (rfl | hp)
    · simpa using ha
    · exact h p hp

/-- An item of weight `0` in front changes nothing. -/
theorem neverNegative_cons_zero {l : List α} {a : α} (ha : w a = 0) :
    NeverNegative w (a :: l) ↔ NeverNegative w l := by
  simp only [neverNegative_iff, List.prefix_cons_iff]
  constructor
  · intro h p hp
    have := h (a :: p) (.inr ⟨p, rfl, hp⟩)
    simpa [ha] using this
  · rintro h p (rfl | ⟨q, rfl, hq⟩)
    · simp
    · simpa [ha] using h q hq

/-- The pair of counters after the items `l`: their difference is the running count until that
goes negative, and from then on `up` stays behind. -/
def Tracks (w : α → ℤ) (l : List α) (up down : ℕ) : Prop :=
  NeverNegative w l ∧ (up : ℤ) - down = (l.map w).sum ∨ ¬ NeverNegative w l ∧ up < down

theorem tracks_nil : Tracks w [] 0 0 := .inl (by simp)

variable {l : List α} {a : α} {u d : ℕ}

/-- An item of weight `k` adds `k` to a counter that is not behind. -/
theorem Tracks.up {k : ℕ} (h : Tracks w l u d) (ha : w a = k) :
    Tracks w (l ++ [a]) (if u ≥ d then u + k else u) d := by
  unfold Tracks at h ⊢
  rw [neverNegative_concat, ha]
  simp only [List.map_append, List.sum_append, List.map_cons, List.map_nil, List.sum_cons,
    List.sum_nil, ha]
  rcases h with ⟨hn, hs⟩ | ⟨hn, hlt⟩
  · have := hn.sum_nonneg
    refine .inl ⟨⟨hn, by omega⟩, ?_⟩
    rw [if_pos (by omega)]
    push_cast
    omega
  · refine .inr ⟨fun h => hn h.1, ?_⟩
    rw [if_neg (by omega)]
    exact hlt

/-- An item of weight `-1` adds one to the second counter. -/
theorem Tracks.down (h : Tracks w l u d) (ha : w a = -1) :
    Tracks w (l ++ [a]) u (d + 1) := by
  unfold Tracks at h ⊢
  rw [neverNegative_concat, ha]
  simp only [List.map_append, List.sum_append, List.map_cons, List.map_nil, List.sum_cons,
    List.sum_nil, ha]
  rcases h with ⟨hn, hs⟩ | ⟨hn, hlt⟩
  · by_cases h0 : 0 ≤ (l.map w).sum + -1
    · exact .inl ⟨⟨hn, h0⟩, by push_cast; omega⟩
    · exact .inr ⟨fun h => h0 h.2, by omega⟩
  · exact .inr ⟨fun h => hn h.1, by omega⟩

/-- An item of weight `0` leaves both counters. -/
theorem Tracks.neutral (h : Tracks w l u d) (ha : w a = 0) : Tracks w (l ++ [a]) u d := by
  have := h.up (k := 0) ha
  simpa using this

/-- **The counters decide the running count.** -/
theorem Tracks.lt_iff (h : Tracks w l u d) : u < d ↔ ¬ NeverNegative w l := by
  rcases h with ⟨hn, hs⟩ | ⟨hn, hlt⟩
  · have := hn.sum_nonneg
    exact ⟨fun _ => by omega, fun h => absurd hn h⟩
  · exact ⟨fun _ => hn, fun _ => hlt⟩

/-! ### Pieces between separators -/

variable [BEq α] [LawfulBEq α]

theorem splitOn_concat_sep (l : List α) (a : α) : (l ++ [a]).splitOn a = l.splitOn a ++ [[]] := by
  rw [List.splitOn_append_cons_self, List.splitOn_nil]

/-- An element other than the separator joins the last piece. -/
theorem splitOn_concat_ne {l : List α} {a b : α} (hb : b ≠ a) {pieces : List (List α)}
    {cur : List α} (h : l.splitOn a = pieces ++ [cur]) :
    (l ++ [b]).splitOn a = pieces ++ [cur ++ [b]] := by
  induction l generalizing pieces cur with
  | nil =>
      rw [List.splitOn_nil, List.singleton_eq_append_iff] at h
      rw [List.nil_append, List.splitOn_eq_singleton (by simpa using Ne.symm hb)]
      rcases h with ⟨rfl, h⟩ | ⟨_, h⟩
      · cases h
        rfl
      · cases h
  | cons x l ih =>
      rw [List.cons_append, List.splitOn_cons_eq_if_modifyHead]
      rw [List.splitOn_cons_eq_if_modifyHead] at h
      by_cases hx : (x == a) = true
      · rw [if_pos hx] at h ⊢
        cases pieces with
        | nil =>
            rw [List.nil_append, List.cons_eq_cons] at h
            exact absurd h.2 (List.splitOn_ne_nil a l)
        | cons p ps =>
            rw [List.cons_append, List.cons_eq_cons] at h
            rw [ih h.2, ← h.1]
            rfl
      · rw [if_neg hx] at h ⊢
        cases hl : l.splitOn a with
        | nil => exact absurd hl (List.splitOn_ne_nil a l)
        | cons y ys =>
            rw [hl, List.modifyHead_cons] at h
            cases pieces with
            | nil =>
                rw [List.nil_append, List.cons_eq_cons] at h
                obtain ⟨rfl, rfl⟩ := h
                have hl' : l.splitOn a = [] ++ [y] := hl
                rw [ih hl']
                rfl
            | cons p ps =>
                rw [List.cons_append, List.cons_eq_cons] at h
                obtain ⟨rfl, rfl⟩ := h
                have hl' : l.splitOn a = (y :: ps) ++ [cur] := hl
                rw [ih hl']
                rfl

end RunningCount
