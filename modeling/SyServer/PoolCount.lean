import SyServer.Pools

/-! # The slots of a pool

Every slot of a chunk is to be handed out or on the free list, and `sy_pool_clear` is to find every chunk.

* `PoolRun.Conserved`: so it is, and `nallocated` is the number of blocks handed out.
* `pool_conserved_iff`: it holds over a run exactly when `sy_pool_init` made one chunk (it puts the slots
  of the first one on the free list, and those of no other), no `realloc` of the vector fails (the vector
  then loses its object), and the counters do not leave the range of an `int`. -/

namespace SyServer

open Calls Cells

/-- The words of a vector. -/
def Vec.elements (w : World) (vec : Vec) : List ℕ :=
  (List.range vec.size.toNat).map fun i => w.mem (vec.entry i)

/-- Every slot is handed out or free; the blocks handed out are counted; there is no free slot left where
a chunk is created; and what `sy_pool_clear` frees is each of the chunks. -/
structure PoolRun.Conserved (s : PoolRun) : Prop where
  slots : ∃ free, Chain s.w.mem s.p.cur free 0 ∧
    (s.created.flatMap Chunk.slots).Perm (s.handed ++ free)
  count : s.p.nallocated = s.handed.length
  full : s.p.cur = 0 → (s.created.flatMap Chunk.slots).Perm s.handed
  reachable : ∃ ptrs, poolClear s.w s.p = .ok ptrs ∧
    (ptrs.filter (· ≠ 0)).Perm (s.created.map Chunk.base)

/-- The calls under which the slots stay accounted for: where the vector is full, `realloc` does not fail;
the size of a new chunk is an `int`, and so is the number of blocks; and no holder writes behind its slot. -/
def PoolOp.Keeps (s : PoolRun) : PoolOp → Prop
  | alloc grown answer =>
      (s.p.cur = 0 → s.p.chunks.size < s.p.chunks.capacity ∨ grown ≠ none) ∧
      (s.p.cur = 0 → answer ≠ none → s.p.width * s.p.chunkSize < 2 ^ 31) ∧
      (s.p.cur ≠ 0 ∨ answer ≠ none → s.handed.length + 1 < 2 ^ 31)
  | free _ => True
  | write a _ => s.InSlot a

/-! ### The vector of the chunks -/

section elements

variable {w w' w₁ : World} {p : MemPool} {vec vec' : Vec}

theorem poolClear_eq (h : p.chunks.Fits w) (hdata : p.chunks.data ≠ 0) :
    poolClear w p = .ok (p.chunks.elements w) := by
  unfold poolClear
  rw [if_pos]
  · rfl
  · intro i hi
    have hroom := h.entry_room hi
    unfold Vec.entry at hroom
    refine ⟨_, h.object hdata, rfl, ?_⟩
    unfold WORD at *
    dsimp only
    omega

/-- Without its object the vector cannot be walked. -/
theorem poolClear_lost (hdata : p.chunks.data = 0) (hsize : 0 < p.chunks.size) :
    poolClear w p = .error .undefined := by
  unfold poolClear
  rw [if_neg]
  intro hall
  obtain ⟨r, hr, h0, -⟩ := hall 0 (by omega)
  exact w.notNull r hr (h0.trans hdata)

/-- One more element. -/
theorem Vec.Pushed.elements_eq (h : vec.Pushed w w₁ vec') (hdata : vec.data ≠ 0) (hsize : 0 ≤ vec.size)
    (hother : ∀ i < vec.size.toNat, w'.mem (vec'.entry i) = w₁.mem (vec'.entry i)) :
    vec'.elements w' = vec.elements w ++ [w'.mem (vec'.entry vec.size.toNat)] := by
  unfold Vec.elements
  rw [h.size, show (vec.size + 1).toNat = vec.size.toNat + 1 by omega, List.range_succ, List.map_append,
    List.map_singleton]
  congr 1
  refine List.map_congr_left fun i hi => ?_
  have hi := List.mem_range.mp hi
  exact (hother i hi).trans (h.elements hdata i hi)

end elements

namespace PoolRun

variable {s s' : PoolRun}

/-- A word of a chunk is none of the vector's. -/
theorem Laid.elements_update (h : s.Laid) {c : Chunk} (hc : c ∈ s.created) {a : ℕ} (v : ℕ)
    (hlow : c.base ≤ a) (hhigh : a < c.base + c.stride * c.count) (hdata : s.p.chunks.data ≠ 0) :
    s.p.chunks.elements { s.w with mem := Function.update s.w.mem a v } = s.p.chunks.elements s.w := by
  refine List.map_congr_left fun i hi => Function.update_of_ne ?_ _ _
  rintro rfl
  have hroom := h.vec.entry_room (List.mem_range.mp hi)
  have hentry := s.p.chunks.le_entry i
  obtain ⟨hthere, hne⟩ := h.there c hc
  rcases (World.distinct_of_mem hthere (h.vec.object hdata) hne).2 with hapart | hapart
  all_goals simp only [Chunk.region] at hapart; omega

theorem Conserved.data_ne (hc : s.Conserved) (h : s.Laid) (hcreated : s.created ≠ []) :
    s.p.chunks.data ≠ 0 := by
  intro hdata
  obtain ⟨ptrs, hclear, hperm⟩ := hc.reachable
  rcases h.vec.size.lt_or_eq with hsize | hsize
  · rw [poolClear_lost hdata hsize] at hclear
    cases hclear
  · unfold poolClear at hclear
    rw [if_pos (by intro i hi; omega), ← hsize] at hclear
    cases hclear
    have hnil : List.Perm [] (s.created.map Chunk.base) := hperm
    exact hcreated (List.map_eq_nil_iff.mp hnil.nil_eq.symm)

/-- Where there is no free slot, all are handed out. -/
theorem slots_handed {mem : ℕ → ℕ} {cur : ℕ} {slots handed : List ℕ} (hcur : cur = 0)
    (hslots : ∃ free, Chain mem cur free 0 ∧ slots.Perm (handed ++ free)) (hpos : ∀ x ∈ slots, x ≠ 0) :
    slots.Perm handed := by
  obtain ⟨free, hchain, hperm⟩ := hslots
  cases free with
  | nil => rwa [List.append_nil] at hperm
  | cons y free =>
      have hy : y = 0 := hchain.1.symm.trans hcur
      exact absurd hy (hpos y (hperm.mem_iff.mpr (List.mem_append_right _ List.mem_cons_self)))

theorem Laid.slot_pos (h : s.Laid) : ∀ x ∈ s.created.flatMap Chunk.slots, x ≠ 0 := by
  intro x hx
  obtain ⟨c, hc, hxc⟩ := List.mem_flatMap.mp hx
  exact h.slot_ne_zero hc hxc

/-- Every slot is there, and every chunk is in the vector. -/
structure Whole (s : PoolRun) : Prop where
  slots : ∃ free, Chain s.w.mem s.p.cur free 0 ∧
    (s.created.flatMap Chunk.slots).Perm (s.handed ++ free)
  data : s.p.chunks.data ≠ 0
  elements : ((s.p.chunks.elements s.w).filter (· ≠ 0)).Perm (s.created.map Chunk.base)

theorem Conserved.whole (hc : s.Conserved) (h : s.Laid) (hcreated : s.created ≠ []) : s.Whole := by
  have hdata := hc.data_ne h hcreated
  obtain ⟨ptrs, hclear, hperm⟩ := hc.reachable
  rw [poolClear_eq h.vec hdata] at hclear
  cases hclear
  exact ⟨hc.slots, hdata, hperm⟩

theorem Whole.conserved_iff (hw : s.Whole) (h : s.Laid) :
    s.Conserved ↔ s.p.nallocated = s.handed.length :=
  ⟨fun hc => hc.count, fun hcount => ⟨hw.slots, hcount, fun hcur => slots_handed hcur hw.slots h.slot_pos,
    _, poolClear_eq h.vec hw.data, hw.elements⟩⟩

/-- The counter, one up. -/
theorem wrap32_succ_iff {n : ℕ} : wrap32 ((n : ℤ) + 1) = (n + 1 : ℕ) ↔ n + 1 < 2 ^ 31 := by
  constructor
  · intro h
    have hlt := (wrap32_range ((n : ℤ) + 1)).2
    rw [h] at hlt
    omega
  · intro h
    rw [wrap32_of_lt (by omega) (by omega)]
    norm_cast

/-- What is known of a pool beside `Conserved`. -/
structure Ready (s : PoolRun) : Prop where
  laid : s.Laid
  created : s.created ≠ []
  small : s.p.nallocated < 2 ^ 31

variable {grown answer : Option ℕ}

/-- The vector with the new chunk. -/
theorem Whole.grow {vec : Vec} {w₁ w : World} {a : ℕ} (hw : s.Whole) (h : s.Laid) (hcur : s.p.cur = 0)
    (hpushed : s.p.chunks.Pushed s.w w₁ vec)
    (hnew : w₁.Grew w vec.data (vec.entry s.p.chunks.size.toNat) a s.p.width.toNat s.p.chunkSize.toNat) :
    (s.grow vec w a).Whole := by
  have hchunk := h.chunkSize
  have hwidth := h.width
  have hobj := hpushed.fits.object hpushed.data
  obtain ⟨k, hk⟩ : ∃ k, s.p.chunkSize.toNat = k + 1 := ⟨s.p.chunkSize.toNat - 1, by omega⟩
  have hchain := hnew.chain
  rw [hk, List.range'_succ] at hchain
  have hhanded := slots_handed hcur hw.slots h.slot_pos
  refine ⟨⟨List.range' (a + s.p.width.toNat) k s.p.width.toNat, hchain.2, ?_⟩, hpushed.data, ?_⟩
  · show ((s.created ++ [_]).flatMap Chunk.slots).Perm (a :: s.handed ++ _)
    rw [List.flatMap_append, List.flatMap_singleton, Chunk.slots, hk, List.range'_succ]
    exact (hhanded.append_right _).trans List.perm_middle
  · have helements : vec.elements w = s.p.chunks.elements s.w ++ [a] := by
      rw [← hnew.entry]
      refine hpushed.elements_eq hw.data h.vec.size fun i hi => hnew.other _ ?_ fun hmem => ?_
      · unfold Vec.entry WORD
        omega
      · obtain ⟨hlow, hhigh⟩ := slot_bounds hmem
        have hroom := hpushed.fits.entry_room (i := i) (by rw [hpushed.size]; omega)
        have hentry := vec.le_entry i
        unfold WORD at *
        rcases (hnew.free.2.2 _ hobj).2 with hapart | hapart
        all_goals dsimp only at hapart; omega
    show ((vec.elements w).filter _).Perm ((s.created ++ [_]).map Chunk.base)
    rw [helements, List.filter_append, List.map_append, List.filter_singleton, decide_eq_true hnew.free.1]
    exact hw.elements.append_right _

/-- The vector with a chunk for which there was no memory. -/
theorem Whole.noChunk {vec : Vec} {w₁ w : World} (hw : s.Whole) (h : s.Laid) (hcur : s.p.cur = 0)
    (hpushed : s.p.chunks.Pushed s.w w₁ vec)
    (hmem : w.mem = Function.update w₁.mem (vec.entry s.p.chunks.size.toNat) 0) :
    Whole { s with w := w, p := { s.p with chunks := vec } } := by
  refine ⟨⟨[], hcur, ?_⟩, hpushed.data, ?_⟩
  · rw [List.append_nil]
    exact slots_handed hcur hw.slots h.slot_pos
  · have helements : vec.elements w = s.p.chunks.elements s.w ++ [0] := by
      have hentry : w.mem (vec.entry s.p.chunks.size.toNat) = 0 := by rw [hmem, Function.update_self]
      rw [← hentry]
      refine hpushed.elements_eq hw.data h.vec.size fun i hi => ?_
      rw [hmem]
      refine Function.update_of_ne ?_ _ _
      unfold Vec.entry WORD
      omega
    show ((vec.elements w).filter _).Perm _
    rw [helements, List.filter_append, List.filter_singleton]
    simpa using hw.elements

/-- A block more is counted as long as the counter does not run over. -/
theorem Whole.counted_iff (hw : s'.Whole) (h : s'.Laid) {n : ℕ} (hcount : s'.p.nallocated = wrap32 (n + 1))
    (hlen : s'.handed.length = n + 1) : s'.Conserved ↔ n + 1 < 2 ^ 31 := by
  rw [hw.conserved_iff h, hcount, hlen]
  exact wrap32_succ_iff

theorem forall_ok_iff {P : PoolRun → Prop} :
    ((Except.ok s : Except Halt PoolRun) ≠ .error .undefined ∧
      ∀ t, (Except.ok s : Except Halt PoolRun) = .ok t → P t) ↔ P s := by
  simp

/-- One call of `sy_pool_alloc`. -/
theorem Ready.alloc_iff (h : s.Ready) (hc : s.Conserved)
    (hpossible : s.alloc grown answer ≠ .error .impossible) :
    (s.alloc grown answer ≠ .error .undefined ∧ ∀ s', s.alloc grown answer = .ok s' → s'.Conserved) ↔
      (PoolOp.alloc grown answer).Keeps s := by
  have hlaid := h.laid
  have hw := hc.whole hlaid h.created
  have hends := hlaid.alloc_ends grown answer
  have hnext : ∀ s', s.alloc grown answer = .ok s' → s'.Laid := fun s' => hlaid.alloc
  generalize s.alloc grown answer = out at hends hpossible hnext
  cases hends with
  | taken hcur =>
      obtain ⟨free, hchain, hperm⟩ := hw.slots
      obtain ⟨free', hchain', hperm'⟩ := take_chain s.handed hcur hchain
      have hwhole : Whole ⟨s.w, { s.p with
          nallocated := wrap32 (s.p.nallocated + 1), cur := s.w.mem s.p.cur },
          s.created, s.p.cur :: s.handed⟩ :=
        ⟨⟨free', hchain', hperm.trans hperm'.symm⟩, hw.data, hw.elements⟩
      have hcounted := hwhole.counted_iff (hnext _ rfl) (by rw [← hc.count]) (List.length_cons ..)
      rw [forall_ok_iff, hcounted]
      exact ⟨fun hlt => ⟨fun h0 => absurd h0 hcur, fun h0 => absurd h0 hcur, fun _ => hlt⟩,
        fun hkeeps => hkeeps.2.2 (.inl hcur)⟩
  | unanswered hcur => exact absurd rfl hpossible
  | noVector hcur hfull hgrown =>
      refine iff_of_false (fun hall => ?_) fun hkeeps => ?_
      · have hc' := hall.2 _ rfl
        exact hc'.data_ne (hnext _ rfl) h.created rfl
      · rcases hkeeps.1 hcur with hroom | hsome
        · omega
        · exact hsome hgrown
  | noChunk hcur hgrown hanswer hpushed hmem hregions =>
      rw [forall_ok_iff, (hw.noChunk hlaid hcur hpushed hmem).conserved_iff (hnext _ rfl)]
      refine iff_of_true hc.count ⟨fun _ => hgrown, fun _ h0 => absurd hanswer h0, ?_⟩
      rintro (h0 | h0)
      · exact absurd hcur h0
      · exact absurd hanswer h0
  | wrapped hcur hanswer hgrown hsize =>
      exact iff_of_false (fun hall => hall.1 rfl) fun hkeeps => hsize (hkeeps.2.1 hcur hanswer)
  | grew hcur hgrown hanswer hsize hpushed hnew =>
      have hsome : answer ≠ none := by simp [hanswer]
      have hcounted := (hw.grow hlaid hcur hpushed hnew).counted_iff (hnext _ rfl) (by rw [← hc.count]; rfl)
        (List.length_cons ..)
      rw [forall_ok_iff, hcounted]
      exact ⟨fun hlt => ⟨fun _ => hgrown, fun _ _ => hsize, fun _ => hlt⟩,
        fun hkeeps => hkeeps.2.2 (.inr hsome)⟩

/-- The free list of the two descriptions is one. -/
theorem Whole.blocks (hw : s.Whole) (h : s.Laid) : ∃ free, Chain s.w.mem s.p.cur free 0 ∧
    (s.created.flatMap Chunk.slots).Perm (s.handed ++ free) ∧ (s.handed ++ free).Nodup ∧
    ∀ x ∈ s.handed ++ free, ∃ c ∈ s.created, x ∈ c.slots := by
  obtain ⟨free, hchain, hperm⟩ := hw.slots
  obtain ⟨free', hchain', hnodup, hslots⟩ := h.blocks
  have h0 : 0 ∉ free := fun hmem =>
    h.slot_pos 0 (hperm.mem_iff.mpr (List.mem_append_right _ hmem)) rfl
  have h0' : 0 ∉ free' := h.zero_notMem fun x hx => hslots x (List.mem_append_right _ hx)
  obtain rfl := hchain.unique hchain' h0 h0'
  exact ⟨free, hchain, hperm, hnodup, hslots⟩

/-- A word of a slot is written. -/
theorem Whole.update (hw : s.Whole) (h : s.Laid) {c : Chunk} (hc : c ∈ s.created) {a : ℕ} (v : ℕ)
    (n : ℤ) (hlow : c.base ≤ a) (hhigh : a < c.base + c.stride * c.count) {cur : ℕ} {free handed : List ℕ}
    (hchain : Chain (Function.update s.w.mem a v) cur free 0)
    (hperm : (s.created.flatMap Chunk.slots).Perm (handed ++ free)) :
    Whole ⟨{ s.w with mem := Function.update s.w.mem a v }, { s.p with cur := cur, nallocated := n },
      s.created, handed⟩ :=
  ⟨⟨free, hchain, hperm⟩, hw.data,
    (h.elements_update hc v hlow hhigh hw.data).symm ▸ hw.elements⟩

/-- One call of `sy_pool_free`, for a block that is handed out. -/
theorem Ready.free_conserved (h : s.Ready) (hc : s.Conserved) {x : ℕ} (hx : x ∈ s.handed) :
    s.free x ≠ .error .undefined ∧ ∀ s', s.free x = .ok s' → s'.Conserved := by
  have hlaid := h.laid
  have hw := hc.whole hlaid h.created
  have hsmall := h.small
  have hcount := hc.count
  have hnext : ∀ s', s.free x = .ok s' → s'.Laid := fun s' hs =>
    laid_call hlaid (show PoolOp.apply (.free x) s = .ok s' from hs)
  obtain ⟨c, hcreated, hxc⟩ := hlaid.handed_slot hx
  obtain ⟨hlow, hhigh⟩ := slot_bounds hxc
  have hpos := hlaid.stride_pos hcreated
  obtain ⟨free, hchain, hperm, hnodup, -⟩ := hw.blocks hlaid
  obtain ⟨free', hchain', hperm'⟩ := free_chain hx hnodup hchain
  have hlen := List.length_pos_of_mem hx
  rw [hlaid.free_eq hx] at hnext ⊢
  rw [forall_ok_iff, (hw.update hlaid hcreated s.p.cur _ hlow (by omega) hchain'
    (hperm.trans hperm'.symm)).conserved_iff (hnext _ rfl)]
  show wrap32 (s.p.nallocated - 1) = ((s.handed.erase x).length : ℤ)
  rw [List.length_erase_of_mem hx, wrap32_of_lt (by omega) (by omega)]
  omega

/-- A write by the holder of a block into its slot. -/
theorem Ready.write_conserved (h : s.Ready) (hc : s.Conserved) {a v : ℕ} (hown : s.Owned a)
    (ha : s.InSlot a) : s.write a v ≠ .error .undefined ∧ ∀ s', s.write a v = .ok s' → s'.Conserved := by
  have hlaid := h.laid
  have hw := hc.whole hlaid h.created
  have hnext : ∀ s', s.write a v = .ok s' → s'.Laid := fun s' hs =>
    laid_call hlaid (show PoolOp.apply (.write a v) s = .ok s' from hs)
  obtain ⟨free, hchain, hperm, hnodup, hslots⟩ := hw.blocks hlaid
  have hchain' := hchain.update (hlaid.inSlot_ne ha hnodup hslots) v
  have hwrite : s.write a v = .ok { s with w := { s.w with mem := Function.update s.w.mem a v } } :=
    (if_pos hown).trans (if_pos ha)
  obtain ⟨c, hcreated, x, hx, hxc, hlow, hhigh⟩ := ha
  obtain ⟨hlow', hhigh'⟩ := slot_bounds hxc
  rw [hwrite] at hnext ⊢
  have hwhole : Whole { s with w := { s.w with mem := Function.update s.w.mem a v } } :=
    hw.update hlaid hcreated v s.p.nallocated (by omega) (by omega) hchain' hperm
  rw [forall_ok_iff, hwhole.conserved_iff (hnext _ rfl)]
  exact hc.count

/-- One call. -/
theorem Ready.call_iff (h : s.Ready) (hc : s.Conserved) {op : PoolOp}
    (hpossible : op.apply s ≠ .error .impossible) :
    (op.apply s ≠ .error .undefined ∧ ∀ s', op.apply s = .ok s' → s'.Conserved) ↔ op.Keeps s := by
  cases op with
  | alloc grown answer => exact h.alloc_iff hc hpossible
  | free x =>
      by_cases hx : x ∈ s.handed
      · exact iff_of_true (h.free_conserved hc hx) trivial
      · exact absurd (if_neg hx) hpossible
  | write a v =>
      by_cases hown : s.Owned a
      · by_cases ha : s.InSlot a
        · exact iff_of_true (h.write_conserved hc hown ha) ha
        · have hleaves : s.write a v = .error .undefined := (if_pos hown).trans (if_neg ha)
          exact iff_of_false (fun hall => hall.1 hleaves) ha
      · exact absurd (if_neg hown) hpossible

/-- Every call leaves the pool ready. -/
theorem Ready.call (h : s.Ready) {op : PoolOp} (hs : op.apply s = .ok s') : s'.Ready := by
  have hlaid := laid_call h.laid hs
  cases op with
  | alloc grown answer =>
      have hends := h.laid.alloc_ends grown answer
      rw [show s.alloc grown answer = _ from hs] at hends
      cases hends with
      | taken => exact ⟨hlaid, h.created, (wrap32_range _).2⟩
      | noVector => exact ⟨hlaid, h.created, h.small⟩
      | noChunk => exact ⟨hlaid, h.created, h.small⟩
      | grew => exact ⟨hlaid, List.append_ne_nil_of_left_ne_nil h.created _, (wrap32_range _).2⟩
  | free x =>
      by_cases hx : x ∈ s.handed
      · rw [show PoolOp.apply (.free x) s = _ from h.laid.free_eq hx] at hs
        cases hs
        exact ⟨hlaid, h.created, (wrap32_range _).2⟩
      · rw [show PoolOp.apply (.free x) s = _ from if_neg hx] at hs
        cases hs
  | write a v =>
      obtain ⟨-, rfl⟩ := Laid.write_ok (show s.write a v = _ from hs)
      exact ⟨hlaid, h.created, h.small⟩

end PoolRun

/-! ### The slots over a run -/

section conserved

variable {w w' w₁ : World} {width chunkSize nchunks : ℤ} {answer : Option ℕ} {answers : List (Option ℕ)}
  {p : MemPool} {data b : ℕ} {bases : List ℕ}

theorem PoolOpened.ready (h : PoolOpened width chunkSize nchunks p w' data b bases w₁)
    (hwidth : width < 2 ^ 31) (hchunk : 1 ≤ chunkSize) (hn : 1 ≤ nchunks) : (PoolRun.start p w' ((b :: bases).map some)).Ready := by
  refine ⟨h.laid hwidth hchunk hn, ?_, ?_⟩
  · rw [h.created]
    exact List.cons_ne_nil _ _
  · show p.nallocated < 2 ^ 31
    rw [h.pool]
    norm_num

/-- Only the slots of the first chunk are on the free list. -/
theorem PoolOpened.conserved_iff (h : PoolOpened width chunkSize nchunks p w' data b bases w₁)
    (hwidth : width < 2 ^ 31) (hchunk : 1 ≤ chunkSize) (hn : nchunks = bases.length + 1) :
    (PoolRun.start p w' ((b :: bases).map some)).Conserved ↔ nchunks = 1 := by
  have hready := h.ready hwidth hchunk (by omega)
  have hlaid := hready.laid
  have hslots : (PoolRun.start p w' ((b :: bases).map some)).created.flatMap Chunk.slots =
      (b :: bases).flatMap fun a => List.range' a chunkSize.toNat WORD := by
    rw [h.created, List.flatMap_map]
    rfl
  constructor
  · intro hc
    obtain ⟨free, hchain, hperm, -, hall⟩ := (hc.whole hlaid hready.created).blocks hlaid
    have h0 : 0 ∉ free := hlaid.zero_notMem fun x hx => hall x (List.mem_append_right _ hx)
    have h0' : 0 ∉ List.range' b chunkSize.toNat WORD := by
      intro hmem
      refine hlaid.slot_pos 0 ?_ rfl
      rw [hslots, List.flatMap_cons]
      exact List.mem_append_left _ hmem
    obtain rfl := hchain.unique h.chain h0 h0'
    have hlen := hperm.length_eq
    rw [hslots, List.flatMap_cons, List.length_append] at hlen
    change _ = (List.range' b chunkSize.toNat WORD).length at hlen
    cases bases with
    | nil => simpa using hn
    | cons b' bases =>
        rw [List.flatMap_cons, List.length_append, List.length_range', List.length_range'] at hlen
        omega
  · intro h1
    obtain rfl : bases = [] := List.length_eq_zero_iff.mp (by omega)
    have hwhole : (PoolRun.start p w' ([b].map some)).Whole := by
      refine ⟨⟨_, h.chain, ?_⟩, ?_, ?_⟩
      · rw [hslots, List.flatMap_singleton]
        rfl
      · show p.chunks.data ≠ 0
        rw [h.pool]
        exact h.found
      · have helements : p.chunks.elements w' = [b] := by
          have hlist := h.made.elements
          rw [h.pool, Vec.elements, List.range_eq_range', h1]
          exact hlist
        have hb : b ≠ 0 := w'.notNull _ (h.made.there b List.mem_cons_self)
        show ((p.chunks.elements w').filter _).Perm _
        rw [helements, h.created, List.filter_singleton, decide_eq_true hb]
        exact .refl _
    rw [hwhole.conserved_iff hlaid]
    show p.nallocated = _
    rw [h.pool]
    rfl

/-- **No slot is lost**: over a run from a successful `sy_pool_init`, whatever `malloc` and `realloc`
answer, exactly when the pool has one chunk at the start and every call meets its condition. -/
theorem pool_conserved_iff (hwidth : width < 2 ^ 31) (hchunk : 1 ≤ chunkSize) (hn : 1 ≤ nchunks)
    (hlen : answers.length = nchunks)
    (hinit : poolInit w width chunkSize nchunks answer answers = .ok (.ok, p, w')) {ops : List PoolOp}
    (hpossible : ∀ x ∈ calls PoolOp.apply (.start p w' answers) ops, x.2.apply x.1 ≠ .error .impossible) :
    ((∀ s ∈ states PoolOp.apply (.start p w' answers) ops, s.Conserved) ∧
      ∀ x ∈ calls PoolOp.apply (.start p w' answers) ops, x.2.apply x.1 ≠ .error .undefined) ↔
    nchunks = 1 ∧ ∀ x ∈ calls PoolOp.apply (.start p w' answers) ops, x.2.Keeps x.1 := by
  obtain ⟨data, b, bases, w₁, rfl, hopened⟩ := poolInit_ok hchunk hn hlen hinit
  have hready := hopened.ready hwidth hchunk hn
  have hcount : nchunks = bases.length + 1 := by
    rw [← hlen, List.length_map, List.length_cons]
    norm_cast
  have hstart := hopened.conserved_iff hwidth hchunk hcount
  have hrun := fun hc => states_iff .undefined PoolRun.Ready PoolRun.Conserved
    (fun s op => PoolOp.apply op s ≠ .error .impossible) (fun s op => PoolOp.Keeps s op)
    (fun op s s' hr _ hs => hr.call hs) (fun op s hr hc hp => hr.call_iff hc hp) hready hc hpossible
  constructor
  · rintro ⟨hstates, hdefined⟩
    have hc := hstates _ (mem_states _ ops)
    exact ⟨hstart.mp hc, (hrun hc).mp ⟨hstates, hdefined⟩⟩
  · rintro ⟨hone, hkeeps⟩
    exact (hrun (hstart.mpr hone)).mpr hkeeps

end conserved

/-- Two chunks at the start: the slots of the second one are lost.  One chunk of one slot: when `realloc`
fails in the second `sy_pool_alloc`, `sy_pool_clear` does not find the chunk. -/
theorem slots_lost :
    (∃ p w', poolInit .empty 8 4 2 (some 4096) [some 8192, some 16384] = .ok (.ok, p, w') ∧
      ¬ (PoolRun.start p w' [some 8192, some 16384]).Conserved) ∧
    ∃ p w', poolInit .empty 8 1 1 (some 4096) [some 8192] = .ok (.ok, p, w') ∧
      ¬ ∀ s ∈ states PoolOp.apply (.start p w' [some 8192]) [.alloc none none, .alloc none none],
        s.Conserved := by
  constructor
  · have hinit : ∃ p w', poolInit .empty 8 4 2 (some 4096) [some 8192, some 16384] = .ok (.ok, p, w') :=
      ⟨_, _, rfl⟩
    obtain ⟨p, w', hinit⟩ := hinit
    have h4 : (1 : ℤ) ≤ 4 := by decide
    have h2 : (1 : ℤ) ≤ 2 := by decide
    obtain ⟨data, b, bases, w₁, hanswers, hopened⟩ := poolInit_ok h4 h2 rfl hinit
    refine ⟨p, w', hinit, fun hc => ?_⟩
    have hlen : (2 : ℤ) = bases.length + 1 := by
      have hlen := congrArg List.length hanswers
      simp at hlen
      omega
    rw [hanswers, hopened.conserved_iff (by decide) h4 hlen] at hc
    exact absurd hc (by decide)
  · refine ⟨_, _, rfl, fun hall => ?_⟩
    have hlast := hall _ (List.mem_cons_of_mem _ (List.mem_cons_of_mem _ List.mem_cons_self))
    obtain ⟨ptrs, hclear, -⟩ := hlast.reachable
    cases hclear

theorem possible_of_all {s : PoolRun} {ops : List PoolOp}
    (h : (calls PoolOp.apply s ops).all (fun x => (x.2.apply x.1).toBool) = true) :
    ∀ x ∈ calls PoolOp.apply s ops, x.2.apply x.1 ≠ .error .impossible := by
  intro x hx herror
  have hok := List.all_eq_true.mp h x hx
  rw [herror] at hok
  cases hok

/-- One chunk of one slot; the second block comes from a new chunk. -/
def growthRun : List PoolOp := [.alloc none none, .alloc (some 12288) (some 16384)]

theorem pool_conserved_iff_growth :
    ∃ p w', poolInit .empty 8 1 1 (some 4096) [some 8192] = .ok (.ok, p, w') ∧
      (∀ s ∈ states PoolOp.apply (.start p w' [some 8192]) growthRun, s.Conserved) ∧
        ∀ x ∈ calls PoolOp.apply (.start p w' [some 8192]) growthRun, x.2.apply x.1 ≠ .error .undefined := by
  have h1 : (1 : ℤ) ≤ 1 := le_rfl
  have h8 : (8 : ℤ) < 2 ^ 31 := by decide
  refine ⟨_, _, rfl, (pool_conserved_iff h8 h1 h1 rfl
    (rfl : poolInit .empty 8 1 1 (some 4096) [some 8192] = _) (possible_of_all rfl)).mpr ⟨rfl, ?_⟩⟩
  intro x hx
  rcases List.mem_cons.mp hx with rfl | hx
  · exact ⟨fun h => absurd h (by decide), fun h => absurd h (by decide), fun _ => by decide⟩
  rcases List.mem_cons.mp hx with rfl | hx
  · exact ⟨fun _ => .inr (by decide), fun _ _ => by decide, fun _ => by decide⟩
  · cases hx

end SyServer
