import SyServer.Base.MemPool
import SyServer.Lib.Cells

/-! # The memory of the vectors and the chunks

What the calls of `base/vector.c` and `sy_chunk_init` do to the heap.

* `World.Kept`: every object but one is there as before; only the vector's object is replaced by
  `vectorPush`, and only it is written by `chunkInit`.
* `vectorPush_cases`, `chunkInit_cases`: how the calls end. -/

namespace SyServer

open Cells

variable {w w' : World}

/-! ### Objects -/

namespace World

instance : Std.Symm Distinct := ⟨fun _ _ h => ⟨h.1.symm, h.2.symm⟩⟩

theorem distinct_of_mem {r r' : ℕ × ℕ} (hr : r ∈ w.regions) (hr' : r' ∈ w.regions) (hne : r.1 ≠ r'.1) :
    Distinct r r' :=
  w.apart.forall hr hr' fun e => hne (congrArg Prod.fst e)

/-- One object is at one address. -/
theorem eq_of_fst {r r' : ℕ × ℕ} (hr : r ∈ w.regions) (hr' : r' ∈ w.regions) (h : r.1 = r'.1) :
    r = r' := by
  by_contra hne
  exact (w.apart.forall hr hr' hne).1 h

theorem sizeAt_eq {p n : ℕ} (h : (p, n) ∈ w.regions) : w.sizeAt p = n := by
  unfold sizeAt
  cases hf : w.regions.find? (·.1 = p) with
  | none => exact absurd (List.find?_eq_none.mp hf _ h) (by simp)
  | some r =>
      have hr := List.mem_of_find?_eq_some hf
      have hp : r.1 = p := by simpa using List.find?_some hf
      rw [eq_of_fst hr h hp]
      rfl

/-- Every object but the one at `p` is there, with its words. -/
def Kept (w w' : World) (p : ℕ) : Prop :=
  ∀ r ∈ w.regions, r.1 ≠ p → r ∈ w'.regions ∧ ∀ x, r.1 ≤ x → x < r.1 + r.2 → w'.mem x = w.mem x

theorem Kept.refl (w : World) (p : ℕ) : Kept w w p := fun _ hr _ => ⟨hr, fun _ _ _ => rfl⟩

theorem Kept.trans {w'' : World} {p : ℕ} (h : Kept w w' p) (h' : Kept w' w'' p) : Kept w w'' p := by
  intro r hr hp
  obtain ⟨hr', hmem⟩ := h r hr hp
  obtain ⟨hr'', hmem'⟩ := h' r hr' hp
  exact ⟨hr'', fun x hlow hhigh => (hmem' x hlow hhigh).trans (hmem x hlow hhigh)⟩

theorem malloc_cases (w : World) (n : ℕ) (answer : Option ℕ) :
    w.malloc n answer = .error .impossible ∨ (answer = none ∧ w.malloc n answer = .ok (0, w)) ∨
      ∃ a w', answer = some a ∧ w.malloc n answer = .ok (a, w') ∧ Free w.regions a n ∧
        w'.mem = w.mem ∧ w'.regions = (a, n) :: w.regions := by
  cases answer with
  | none => exact .inr (.inl ⟨rfl, rfl⟩)
  | some a =>
      by_cases hfree : Free w.regions a n
      · exact .inr (.inr ⟨a, _, rfl, dif_pos hfree, hfree, rfl, rfl⟩)
      · exact .inl (dif_neg hfree)

theorem store_ok {obj m a : ℕ} (v : ℕ) (hobj : (obj, m) ∈ w.regions) (hlow : obj ≤ a)
    (hhigh : a + 8 ≤ obj + m) :
    ∃ w', w.store obj a v = .ok w' ∧ w'.mem = Function.update w.mem a v ∧ w'.regions = w.regions :=
  ⟨_, if_pos ⟨_, hobj, rfl, hlow, hhigh⟩, rfl, rfl⟩

theorem store_undefined {obj m a : ℕ} (v : ℕ) (hobj : (obj, m) ∈ w.regions) (hhigh : obj + m < a + 8) :
    w.store obj a v = .error .undefined := by
  unfold store
  rw [if_neg]
  rintro ⟨r, hr, hr1, -, hr2⟩
  rw [eq_of_fst hr hobj hr1] at hr2
  exact absurd hr2 (by dsimp only; omega)

theorem realloc_cases (w : World) (p n : ℕ) (answer : Option ℕ) :
    w.realloc p n answer = .error .impossible ∨ (answer = none ∧ w.realloc p n answer = .ok (0, w)) ∨
      ∃ a w', answer = some a ∧ w.realloc p n answer = .ok (a, w') ∧ Free (w.others p) a n ∧
        (∀ x, w'.mem x = if a ≤ x ∧ x < a + min (w.sizeAt p) n then w.mem (p + (x - a)) else w.mem x) ∧
        w'.regions = (a, n) :: w.others p := by
  cases answer with
  | none => exact .inr (.inl ⟨rfl, rfl⟩)
  | some a =>
      by_cases hfree : Free (w.others p) a n
      · exact .inr (.inr ⟨a, _, rfl, dif_pos hfree, hfree, fun _ => rfl, rfl⟩)
      · exact .inl (dif_neg hfree)

theorem mem_others {p : ℕ} {r : ℕ × ℕ} : r ∈ w.others p ↔ r ∈ w.regions ∧ r.1 ≠ p := by
  unfold others
  rw [List.mem_filter, decide_eq_true_iff]

/-- A word of one object is written. -/
theorem Kept.of_update {obj m a v : ℕ} (hobj : (obj, m) ∈ w.regions) (hlow : obj ≤ a)
    (hhigh : a + 8 ≤ obj + m) (hmem : w'.mem = Function.update w.mem a v)
    (hregions : w'.regions = w.regions) : w.Kept w' obj := by
  intro r hr hne
  refine ⟨hregions ▸ hr, fun x hx hx' => ?_⟩
  rw [hmem, Function.update_of_ne]
  rintro rfl
  rcases (distinct_of_mem hr hobj hne).2 with hapart | hapart
  all_goals dsimp only at hapart; omega

end World

/-! ### The slots of a chunk -/

/-- The links lead from slot to slot, and nothing else is written. -/
theorem linkSlots_ok {obj m width : ℕ} (hwidth : 0 < width) {n addr : ℕ} (hobj : (obj, m) ∈ w.regions)
    (hlow : obj ≤ addr) (hhigh : addr + width * n + 8 ≤ obj + m) :
    ∃ w', linkSlots obj width n addr w = .ok w' ∧ w'.regions = w.regions ∧
      Chain w'.mem addr (List.range' addr (n + 1) width) 0 ∧
      ∀ x, x ∉ List.range' addr (n + 1) width → w'.mem x = w.mem x := by
  induction n generalizing addr w with
  | zero =>
      obtain ⟨w', hok, hmem, hregions⟩ := World.store_ok 0 hobj hlow hhigh
      refine ⟨w', hok, hregions, ?_, ?_⟩
      · rw [hmem]
        simp
      · intro x hx
        rw [hmem]
        exact Function.update_of_ne (by simpa using hx) _ _
  | succ n ih =>
      have hstep : width * (n + 1) = width * n + width := Nat.mul_succ _ _
      obtain ⟨w', hok, hmem, hregions⟩ := World.store_ok (addr + width) hobj hlow (by omega)
      obtain ⟨w'', hrest, hregions', hchain, hother⟩ :=
        ih (w := w') (hregions ▸ hobj) (show obj ≤ addr + width by omega) (by omega)
      have hnot : addr ∉ List.range' (addr + width) (n + 1) width := by
        rw [List.mem_range']
        rintro ⟨i, -, hi⟩
        omega
      refine ⟨w'', ?_, hregions'.trans hregions, ?_, ?_⟩
      · unfold linkSlots
        rw [hok]
        exact hrest
      · rw [List.range'_succ, chain_cons, hother addr hnot, hmem, Function.update_self]
        exact ⟨rfl, hchain⟩
      · intro x hx
        rw [List.range'_succ, List.mem_cons, not_or] at hx
        rw [hother x hx.2, hmem, Function.update_of_ne hx.1]

theorem linkSlots_undefined {obj m width : ℕ} {n addr : ℕ} (hobj : (obj, m) ∈ w.regions)
    (hlow : obj ≤ addr) (hhigh : obj + m < addr + width * n + 8) :
    linkSlots obj width n addr w = .error .undefined := by
  induction n generalizing addr w with
  | zero => exact World.store_undefined 0 hobj hhigh
  | succ n ih =>
      have hstep : width * (n + 1) = width * n + width := Nat.mul_succ _ _
      unfold linkSlots
      by_cases hroom : addr + 8 ≤ obj + m
      · obtain ⟨w', hok, -, hregions⟩ := World.store_ok (addr + width) hobj hlow hroom
        rw [hok]
        exact ih (w := w') (hregions ▸ hobj) (by omega) (by omega)
      · rw [World.store_undefined _ hobj (by omega)]
        rfl

/-- What a new chunk of `size` slots at `a` does to the heap, when its address goes into the object at
`obj`. -/
structure World.Grew (w w' : World) (obj chunk a width size : ℕ) : Prop where
  regions : w'.regions = (a, width * size) :: w.regions
  free : World.Free w.regions a (width * size)
  entry : w'.mem chunk = a
  chain : Chain w'.mem a (List.range' a size width) 0
  other : ∀ x, x ≠ chunk → x ∉ List.range' a size width → w'.mem x = w.mem x

/-- A slot lies in its chunk. -/
theorem slot_bounds {a size width x : ℕ} (h : x ∈ List.range' a size width) :
    a ≤ x ∧ x + width ≤ a + width * size := by
  obtain ⟨i, hi, rfl⟩ := List.mem_range'.mp h
  have hmul := Nat.mul_le_mul_left width (show i + 1 ≤ size from hi)
  rw [Nat.mul_succ] at hmul
  omega

theorem World.Grew.kept {obj chunk m a width size : ℕ} (h : World.Grew w w' obj chunk a width size)
    (hobj : (obj, m) ∈ w.regions) (hlow : obj ≤ chunk) (hhigh : chunk + 8 ≤ obj + m) (hwidth : 0 < width) :
    w.Kept w' obj := by
  intro r hr hne
  refine ⟨h.regions ▸ List.mem_cons_of_mem _ hr, fun x hx hx' => h.other x ?_ ?_⟩
  · rintro rfl
    rcases (World.distinct_of_mem hr hobj hne).2 with hapart | hapart
    all_goals dsimp only at hapart; omega
  · intro hx''
    obtain ⟨hlow', hhigh'⟩ := slot_bounds hx''
    rcases (h.free.2.2 r hr).2 with hapart | hapart
    all_goals dsimp only at hapart; omega

/-- `sy_chunk_init` for a chunk at an address in the object at `obj`: no memory; or a new chunk, where
its size fits an `int`, and a write behind its end where it does not. -/
theorem chunkInit_cases {obj m chunk : ℕ} {width size : ℤ} (answer : Option ℕ)
    (hobj : (obj, m) ∈ w.regions) (hlow : obj ≤ chunk) (hhigh : chunk + 8 ≤ obj + m)
    (hwidth : 8 ≤ width) (hwidth' : width < 2 ^ 31) (hsize : 1 ≤ size) :
    chunkInit w obj chunk width size answer = .error .impossible ∨
    (answer = none ∧ ∃ w', chunkInit w obj chunk width size answer = .ok (.error, w') ∧
      w'.mem = Function.update w.mem chunk 0 ∧ w'.regions = w.regions) ∨
    ∃ a, answer = some a ∧
      if width * size < 2 ^ 31 then
        ∃ w', chunkInit w obj chunk width size answer = .ok (.ok, w') ∧
          w.Grew w' obj chunk a width.toNat size.toNat
      else chunkInit w obj chunk width size answer = .error .undefined := by
  unfold chunkInit
  rw [if_neg (by omega)]
  have hmul : 0 ≤ width * size := Int.mul_nonneg (by omega) (by omega)
  have hnat : ((width.toNat * size.toNat : ℕ) : ℤ) = width * size := by
    rw [Nat.cast_mul, Int.toNat_of_nonneg (by omega), Int.toNat_of_nonneg (by omega)]
  have hlast : width.toNat * size.toNat = width.toNat * (size - 1).toNat + width.toNat := by
    rw [← Nat.mul_succ]
    congr 1
    omega
  rcases World.malloc_cases w (toSize (wrap32 (width * size))) answer with
    hbad | ⟨hnone, hok⟩ | ⟨a, w₁, hsome, hok, hfree, hmem, hregions⟩
  · exact .inl (by rw [hbad]; rfl)
  · obtain ⟨w₂, hstore, hmem, hregions⟩ := World.store_ok 0 hobj hlow hhigh
    refine .inr (.inl ⟨hnone, w₂, ?_, hmem, hregions⟩)
    rw [hok]
    show (w.store obj chunk 0 >>= _) = _
    rw [hstore]
    rfl
  · refine .inr (.inr ⟨a, hsome, ?_⟩)
    have hobj₁ : (obj, m) ∈ w₁.regions := hregions ▸ List.mem_cons_of_mem _ hobj
    obtain ⟨w₂, hstore, hmem₂, hregions₂⟩ := World.store_ok a hobj₁ hlow hhigh
    have hnew : (a, toSize (wrap32 (width * size))) ∈ w₂.regions := by
      rw [hregions₂, hregions]
      exact List.mem_cons_self
    rw [hok]
    show if width * size < 2 ^ 31 then ∃ w', (w₁.store obj chunk a >>= _) = _ ∧ _
      else (w₁.store obj chunk a >>= _) = _
    rw [hstore]
    show if width * size < 2 ^ 31 then ∃ w', (if a = 0 then _ else _) = _ ∧ _
      else (if a = 0 then _ else _) = _
    rw [if_neg hfree.1]
    split_ifs with hfits
    · have hsizeof : toSize (wrap32 (width * size)) = width.toNat * size.toNat := by
        rw [toSize_wrap32 hmul hfits]
        omega
      rw [hsizeof] at hnew hfree hregions
      obtain ⟨w₃, hlinks, hregions₃, hchain, hother⟩ :=
        linkSlots_ok (n := (size - 1).toNat) (show 0 < width.toNat by omega) hnew le_rfl (by omega)
      rw [show (size - 1).toNat + 1 = size.toNat by omega] at hchain hother
      have hchunk : chunk ∉ List.range' a size.toNat width.toNat := by
        intro hmem
        obtain ⟨hlow', hhigh'⟩ := slot_bounds hmem
        rcases (hfree.2.2 _ hobj).2 with hapart | hapart
        all_goals dsimp only at hapart; omega
      refine ⟨w₃, ?_, ?_, hfree, ?_, hchain, ?_⟩
      · rw [hlinks]
        rfl
      · rw [hregions₃, hregions₂, hregions]
      · rw [hother chunk hchunk, hmem₂, Function.update_self]
      · intro x hx hx'
        rw [hother x hx', hmem₂, Function.update_of_ne hx, hmem]
    · have hwrapped := toSize_wrapped (by omega) hfree.2.1
      rw [linkSlots_undefined hnew le_rfl (by omega)]
      rfl

/-- Where `sy_chunk_init` returns, the chunk is in its object. -/
theorem chunkInit_room {obj m chunk : ℕ} {width size : ℤ} {answer : Option ℕ} {x : Rc × World}
    (hobj : (obj, m) ∈ w.regions) (h : chunkInit w obj chunk width size answer = .ok x) :
    chunk + 8 ≤ obj + m := by
  by_contra hroom
  unfold chunkInit at h
  split_ifs at h
  · cases h
  · rcases World.malloc_cases w (toSize (wrap32 (width * size))) answer with
      hbad | ⟨-, hok⟩ | ⟨a, w₁, -, hok, -, -, hregions⟩
    · rw [hbad] at h
      cases h
    · rw [hok] at h
      change (w.store obj chunk 0 >>= _) = _ at h
      rw [World.store_undefined 0 hobj (by omega)] at h
      cases h
    · rw [hok] at h
      change (w₁.store obj chunk a >>= _) = _ at h
      rw [World.store_undefined a (hregions ▸ List.mem_cons_of_mem _ hobj) (by omega)] at h
      cases h

/-! ### The vector of the chunks -/

/-- A vector of words: its elements are in its object; where the object is gone, the vector is full. -/
structure Vec.Fits (w : World) (vec : Vec) : Prop where
  width : vec.width = WORD
  size : 0 ≤ vec.size
  le : vec.size ≤ vec.capacity
  small : vec.capacity < 2 ^ 28
  full : vec.data = 0 → vec.size = vec.capacity
  object : vec.data ≠ 0 → (vec.data, WORD * vec.capacity.toNat) ∈ w.regions

/-- The element `i`. -/
def Vec.entry (vec : Vec) (i : ℕ) : ℕ := vec.data + WORD * i

theorem Vec.le_entry (vec : Vec) (i : ℕ) : vec.data ≤ vec.entry i := Nat.le_add_right _ _

theorem Vec.Fits.entry_room {vec : Vec} (h : vec.Fits w) {i : ℕ} (hi : i < vec.size.toNat) :
    vec.entry i + 8 ≤ vec.data + WORD * vec.capacity.toNat := by
  have hle := h.le
  unfold Vec.entry WORD
  omega

/-- Behind its last one, another element: where it is, what happened to the heap, and to the elements. -/
structure Vec.Pushed (w w' : World) (vec vec' : Vec) : Prop where
  fits : vec'.Fits w'
  size : vec'.size = vec.size + 1
  data : vec'.data ≠ 0
  kept : w.Kept w' vec.data
  fresh : ∀ r ∈ w.regions, r.1 ≠ vec.data → r.1 ≠ vec'.data
  elements : vec.data ≠ 0 → ∀ i < vec.size.toNat, w'.mem (vec'.entry i) = w.mem (vec.entry i)

/-- The last element of a vector. -/
theorem Vec.Fits.at_last {vec : Vec} (h : vec.Fits w) (hsize : 1 ≤ vec.size) :
    vec.at (wrap32 (vec.size - 1)) = vec.entry (vec.size.toNat - 1) := by
  have hsmall := h.small
  have hle := h.le
  unfold Vec.at Vec.entry
  rw [h.width, wrap32_of_lt (by omega) (by omega), if_neg (by omega),
    wrap32_of_lt (by unfold WORD; omega) (by unfold WORD; omega)]
  unfold WORD
  omega

/-- The object of a larger vector. -/
theorem vectorResize_cases {vec : Vec} (h : vec.Fits w) (grown : Option ℕ) :
    vectorResize w vec (vec.size + 1) grown = .error .impossible ∨
    (vec.capacity = vec.size ∧ grown = none ∧
      vectorResize w vec (vec.size + 1) grown = .ok (.error, { vec with data := 0 }, w)) ∨
    ∃ vec' w', (vec.size < vec.capacity ∨ grown ≠ none) ∧
      vectorResize w vec (vec.size + 1) grown = .ok (.ok, vec', w') ∧ vec.Pushed w w' vec' := by
  have hsize := h.size
  have hle := h.le
  have hsmall := h.small
  unfold vectorResize
  split_ifs with hgrow
  · have heq : vec.capacity = vec.size := by omega
    have hcap : max (vec.size + 1) (wrap32 (vec.capacity * 2 + 1)) = 2 * vec.size + 1 := by
      rw [wrap32_of_lt (by omega) (by omega)]
      omega
    rw [hcap, h.width]
    rcases w.realloc_cases vec.data (toSize (wrap32 (WORD * (2 * vec.size + 1)))) grown with
      hbad | ⟨hnone, hok⟩ | ⟨a, w', hsome, hok, hfree, hmem, hregions⟩
    · exact .inl (by dsimp only; rw [hbad]; rfl)
    · exact .inr (.inl ⟨heq, hnone, by dsimp only; rw [hok]; rfl⟩)
    · have hfits : WORD * (2 * vec.size + 1) < 2 ^ 31 := by
        by_contra hbig
        have hwrapped := toSize_wrapped (not_lt.mp hbig) hfree.2.1
        unfold WORD at hwrapped
        omega
      have hbytes : toSize (wrap32 (WORD * (2 * vec.size + 1))) = WORD * (2 * vec.size + 1).toNat := by
        rw [toSize_wrap32 (by unfold WORD; omega) hfits]
        unfold WORD
        omega
      rw [hbytes] at hok hfree hmem hregions
      have hgrown : grown ≠ none := by simp [hsome]
      refine .inr (.inr ⟨⟨vec.size + 1, 2 * vec.size + 1, vec.width, a⟩, w', .inr hgrown, ?_, ?_⟩)
      · dsimp only
        rw [hbytes, hok]
        show (if a = 0 then _ else _) = _
        rw [if_neg hfree.1, h.width]
        rfl
      · refine ⟨⟨h.width, ?_, ?_, ?_, ?_, ?_⟩, rfl, hfree.1, ?_, ?_, ?_⟩
        · show 0 ≤ vec.size + 1
          omega
        · show vec.size + 1 ≤ 2 * vec.size + 1
          omega
        · show 2 * vec.size + 1 < 2 ^ 28
          unfold WORD at hfits
          omega
        · exact fun h0 => absurd h0 hfree.1
        · intro _
          rw [hregions]
          exact List.mem_cons_self
        · intro r hr hne
          have hr' := World.mem_others.mpr ⟨hr, hne⟩
          refine ⟨hregions ▸ List.mem_cons_of_mem _ hr', fun x hx hx' => ?_⟩
          rw [hmem, if_neg]
          rintro ⟨hlow, hhigh⟩
          rcases (hfree.2.2 r hr').2 with hapart | hapart
          all_goals dsimp only at hapart; omega
        · exact fun r hr hne => ((hfree.2.2 r (World.mem_others.mpr ⟨hr, hne⟩)).1).symm
        · intro hdata i hi
          have hbytes := World.sizeAt_eq (h.object hdata)
          rw [hmem, hbytes]
          unfold Vec.entry WORD
          dsimp only
          rw [if_pos (by omega)]
          congr 1
          omega
  · refine .inr (.inr ⟨{ vec with size := vec.size + 1 }, w, .inl (by omega), rfl, ?_⟩)
    have hdata : vec.data ≠ 0 := fun h0 => by have := h.full h0; omega
    refine ⟨⟨h.width, by dsimp only; omega, by dsimp only; omega, hsmall, ?_, h.object⟩, rfl, hdata,
      .refl _ _, fun _ _ hne => hne, fun _ _ _ => rfl⟩
    exact fun h0 => absurd h0 hdata

/-- `sy_vector_push`: where its object cannot be made larger, the vector loses it. -/
theorem vectorPush_cases {vec : Vec} (h : vec.Fits w) (grown : Option ℕ) :
    vectorPush w vec grown = .error .impossible ∨
    (vec.capacity = vec.size ∧ grown = none ∧
      vectorPush w vec grown = .ok (0, { vec with data := 0 }, w)) ∨
    ∃ vec' w', (vec.size < vec.capacity ∨ grown ≠ none) ∧
      vectorPush w vec grown = .ok (vec'.entry vec.size.toNat, vec', w') ∧ vec.Pushed w w' vec' := by
  have hsize := h.size
  have hle := h.le
  have hsmall := h.small
  unfold vectorPush
  rw [wrap32_of_lt (by omega) (by omega)]
  rcases vectorResize_cases h grown with hbad | ⟨heq, hnone, hok⟩ | ⟨vec', w', hgrown, hok, hpushed⟩
  · exact .inl (by rw [hbad]; rfl)
  · exact .inr (.inl ⟨heq, hnone, by rw [hok]; rfl⟩)
  · refine .inr (.inr ⟨vec', w', hgrown, ?_, hpushed⟩)
    have hlast := hpushed.fits.at_last (by rw [hpushed.size]; omega)
    rw [hpushed.size, show (vec.size + 1).toNat - 1 = vec.size.toNat by omega] at hlast
    rw [hok, ← hlast, ← hpushed.size]
    rfl

/-! ### The first chunks -/

/-- The chunks at `bases`, of `n` slots each, are new; their addresses are the elements from `i` on. -/
structure World.Made (w w' : World) (data i n : ℕ) (bases : List ℕ) : Prop where
  kept : w.Kept w' data
  regions : ∀ r ∈ w.regions, r ∈ w'.regions
  there : ∀ b ∈ bases, (b, WORD * n) ∈ w'.regions
  chain : ∀ b ∈ bases, Chain w'.mem b (List.range' b n WORD) 0
  fresh : ∀ b ∈ bases, ∀ r ∈ w.regions, b ≠ r.1
  nodup : bases.Nodup
  before : ∀ j < i, w'.mem (data + WORD * j) = w.mem (data + WORD * j)
  elements : (List.range' i bases.length).map (fun j => w'.mem (data + WORD * j)) = bases

/-- The loop of `sy_pool_init`, where it goes through: every chunk is there, and in its place. -/
theorem initChunks_ok {data m : ℕ} {chunkSize : ℤ} (hsize : 1 ≤ chunkSize) {answers : List (Option ℕ)}
    {i : ℕ} (hobj : (data, m) ∈ w.regions)
    (h : initChunks data chunkSize i answers w = .ok (.ok, w')) :
    ∃ bases, answers = bases.map some ∧
      (bases ≠ [] → WORD * chunkSize < 2 ^ 31 ∧ WORD * (i + bases.length) ≤ m) ∧
      w.Made w' data i chunkSize.toNat bases := by
  induction answers generalizing i w with
  | nil =>
      cases h
      refine ⟨[], rfl, fun h0 => absurd rfl h0, .refl _ _, fun _ hr => hr, ?_, ?_, ?_, .nil,
        fun _ _ => rfl, rfl⟩
      all_goals exact fun b hb => absurd hb List.not_mem_nil
  | cons answer answers ih =>
      unfold initChunks at h
      obtain ⟨x, hx⟩ : ∃ x, chunkInit w data (data + WORD * i) WORD chunkSize answer = .ok x := by
        cases hc : chunkInit w data (data + WORD * i) WORD chunkSize answer with
        | error e =>
            rw [hc] at h
            cases h
        | ok x => exact ⟨x, rfl⟩
      have hroom := chunkInit_room hobj hx
      have hword : (8 : ℤ) ≤ WORD := by decide
      rcases chunkInit_cases answer hobj (Nat.le_add_right _ _) hroom hword (by decide) hsize with
        hbad | ⟨-, w₁, hok, -⟩ | ⟨b, rfl, hok⟩
      · rw [hbad] at h
        cases h
      · rw [hok] at h
        cases h
      · split_ifs at hok with hfits
        · obtain ⟨w₁, hok, hnew⟩ := hok
          rw [hok] at h
          rw [Int.toNat_natCast] at hnew
          have hregions : ∀ r ∈ w.regions, r ∈ w₁.regions := fun r hr =>
            hnew.regions ▸ List.mem_cons_of_mem _ hr
          have hb : (b, WORD * chunkSize.toNat) ∈ w₁.regions := hnew.regions ▸ List.mem_cons_self
          obtain ⟨bases, rfl, hlast, hmade⟩ := ih (hregions _ hobj) h
          have hkept := hnew.kept hobj (Nat.le_add_right _ _) hroom (by decide)
          have hbdata : b ≠ data := (hnew.free.2.2 _ hobj).1
          refine ⟨b :: bases, rfl, fun _ => ⟨hfits, ?_⟩, ?_⟩
          · by_cases h0 : bases = []
            · subst h0
              rw [List.length_singleton]
              unfold WORD at hroom ⊢
              omega
            · have hle := (hlast h0).2
              rw [List.length_cons]
              unfold WORD at hle ⊢
              omega
          · have hkept₁ := hmade.kept _ hb hbdata
            refine ⟨hkept.trans hmade.kept, fun r hr => hmade.regions r (hregions r hr),
              ?_, ?_, ?_, ?_, ?_, ?_⟩
            · exact List.forall_mem_cons.mpr ⟨hkept₁.1, hmade.there⟩
            · refine List.forall_mem_cons.mpr ⟨hnew.chain.congr fun x hx => ?_, hmade.chain⟩
              obtain ⟨hlow, hhigh⟩ := slot_bounds hx
              have hpos : 0 < WORD := by decide
              exact hkept₁.2 x hlow (by dsimp only; omega)
            · refine List.forall_mem_cons.mpr ⟨fun r hr => (hnew.free.2.2 r hr).1, fun b' hb' r hr => ?_⟩
              exact hmade.fresh b' hb' r (hregions r hr)
            · exact List.nodup_cons.mpr ⟨fun hmem => hmade.fresh b hmem _ hb rfl, hmade.nodup⟩
            · intro j hj
              rw [hmade.before j (by omega)]
              refine hnew.other _ ?_ fun hx => ?_
              · unfold WORD
                omega
              · obtain ⟨hlow, hhigh⟩ := slot_bounds hx
                unfold WORD at *
                rcases (hnew.free.2.2 _ hobj).2 with hapart | hapart
                all_goals dsimp only at hapart; omega
            · rw [List.length_cons, List.range'_succ, List.map_cons, hmade.elements,
                hmade.before i (Nat.lt_succ_self i), hnew.entry]
        · rw [hok] at h
          cases h

/-- The loop writes behind no object when the sizes of the vector and of a chunk fit. -/
theorem initChunks_defined {data m : ℕ} {chunkSize : ℤ} (hsize : 1 ≤ chunkSize)
    (hfits : WORD * chunkSize < 2 ^ 31) {answers : List (Option ℕ)} {i : ℕ} (hobj : (data, m) ∈ w.regions)
    (hroom : WORD * (i + answers.length) ≤ m) :
    initChunks data chunkSize i answers w ≠ .error .undefined := by
  induction answers generalizing i w with
  | nil => exact fun h => by cases h
  | cons answer answers ih =>
      rw [List.length_cons] at hroom
      unfold initChunks
      have hentry : data + WORD * i + 8 ≤ data + m := by
        unfold WORD at hroom ⊢
        omega
      have hword : (8 : ℤ) ≤ WORD := by decide
      rcases chunkInit_cases answer hobj (Nat.le_add_right _ _) hentry hword (by decide) hsize with
        hbad | ⟨-, w₁, hok, -⟩ | ⟨b, rfl, hok⟩
      · rw [hbad]
        exact fun h => by cases h
      · rw [hok]
        exact fun h => by cases h
      · rw [if_pos hfits] at hok
        obtain ⟨w₁, hok, hnew⟩ := hok
        rw [hok]
        exact ih (hnew.regions ▸ List.mem_cons_of_mem _ hobj) (by unfold WORD at hroom ⊢; omega)

end SyServer
